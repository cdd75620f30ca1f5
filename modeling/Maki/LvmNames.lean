import Maki.Layout

/-! Names of logical volumes and of the device-mapper devices behind them (`maki_privileged::config`,
`detach::mapped_volume_group`, the mapping name of `lvm_preflight::verify_mappings`). A hyphen of a
name is doubled in the mapping, so a single one ends the volume group. -/
namespace Maki.Lvm

def isControl (c : Char) : Bool := c.toNat < 0x20 || (0x7f ≤ c.toNat && c.toNat < 0xa0)

/-- A value passed to a system utility: never empty, option-like or with control characters.
The error is the text of `ConfigError::Invalid`. -/
def checkArgument [DebugTable] (name value : String) : Except String Unit :=
  if value.isEmpty then .error s!"{name} is empty"
  else if value.toList.head? = some '-' then
    .error s!"{name} {debugText value} starts with '-' and could be parsed as an option"
  else if value.toList.any fun c => isControl c || c = '\x00' then
    .error s!"{name} contains control characters"
  else .ok ()

def lvmChar (c : Char) : Bool := c.isAlphanum || c ∈ ['.','_','-','+']

def checkLvmName [DebugTable] (name value : String) : Except String Unit := do
  checkArgument name value
  if !value.toList.all lvmChar || value = "." || value = ".." then
    .error s!"{name} {debugText value} is not a valid LVM name"
  else .ok ()

def scanGroup : List Char → List Char → Option (List Char)
  | _, [] => none
  | group, '-' :: '-' :: rest => scanGroup (group ++ ['-']) rest
  | group, '-'::_ => some group
  | group, c::rest => scanGroup (group ++ [c]) rest

def mappedVolumeGroup (name : String) : Option String := (scanGroup [] name.toList).map String.ofList

/-- `replace('-', "--")`. -/
def doubleHyphens (s : List Char) : List Char := s.flatMap fun c => if c = '-' then ['-','-'] else [c]

def mappingName (vg lv : String) : String :=
  String.ofList (doubleHyphens vg.toList ++ '-'::doubleHyphens lv.toList)

/-- A doubled name is read up to the single hyphen behind it. -/
theorem scanGroup_doubled {c : Char} (hc : c ≠ '-') (xs group rest : List Char) :
    scanGroup group (doubleHyphens xs ++ '-'::c::rest) = some (group ++ xs) := by
  induction xs generalizing group with
  | nil =>
    have hsingle : scanGroup group ('-'::c::rest) = some group := by
      rw [scanGroup]
      rintro _ h
      exact hc (List.cons.inj h).1
    simpa [doubleHyphens] using hsingle
  | cons x xs ih =>
    by_cases hx : x = '-'
    · subst hx
      simpa [doubleHyphens,scanGroup] using ih (group ++ ['-'])
    · have hpush : ∀ tail, scanGroup group (x::tail) = scanGroup (group ++ [x]) tail := by
        intro tail
        rw [scanGroup]
        · exact fun _ h => absurd h hx
        · exact hx
      simpa [doubleHyphens,hx,hpush] using ih (group ++ [x])

theorem doubleHyphens_injective {xs ys : List Char} (h : doubleHyphens xs = doubleHyphens ys) : xs = ys := by
  have hx := scanGroup_doubled (c := 'x') (by decide) xs [] []
  rw [h,scanGroup_doubled (c := 'x') (by decide) ys [] []] at hx
  simpa using hx.symm

/-- An accepted name starts with something else than a hyphen, and so does its doubled form. -/
theorem exists_head [DebugTable] {name value : String} (h : checkLvmName name value = .ok ()) :
    ∃ c rest, c ≠ '-' ∧ doubleHyphens value.toList = c::rest := by
  have harg : checkArgument name value = .ok () := by
    unfold checkLvmName at h
    cases hc : checkArgument name value with
    | ok u => rfl
    | error e => simp [hc,bind,Except.bind] at h
  unfold checkArgument at harg
  split_ifs at harg with hempty hhead
  cases hl : value.toList with
  | nil => exact absurd (by simpa using hl) hempty
  | cons c cs =>
    have hc : c ≠ '-' := by simpa [hl] using hhead
    exact ⟨c,doubleHyphens cs,hc,by simp [doubleHyphens,hc]⟩

theorem mappedVolumeGroup_mappingName [DebugTable] {m vg lv : String} (hl : checkLvmName m lv = .ok ()) (suffix : String) :
    mappedVolumeGroup (mappingName vg lv ++ suffix) = some vg := by
  obtain ⟨c,rest,hc,hd⟩ := exists_head hl
  have hscan := scanGroup_doubled hc vg.toList [] (rest ++ suffix.toList)
  simp [mappedVolumeGroup,mappingName,hd,hscan]

/-- A mapping names its volume group, with any suffix, and its volume. -/
theorem mapping_names_identify [DebugTable] :
    (∀ n m vg lv suffix, checkLvmName n vg = .ok () → checkLvmName m lv = .ok () →
      mappedVolumeGroup (mappingName vg lv ++ suffix) = some vg) ∧
    ∀ n m vg lv vg' lv', checkLvmName n vg = .ok () → checkLvmName m lv = .ok () →
      checkLvmName n vg' = .ok () → checkLvmName m lv' = .ok () →
      mappingName vg lv = mappingName vg' lv' → vg = vg' ∧ lv = lv' := by
  refine ⟨fun n m vg lv suffix _ hl => mappedVolumeGroup_mappingName hl suffix,?_⟩
  intro n m vg lv vg' lv' _ hl _ hl' heq
  have hvg : vg = vg' := by
    have hv : mappedVolumeGroup (mappingName vg lv ++ "") = some vg := mappedVolumeGroup_mappingName hl ""
    rw [heq,mappedVolumeGroup_mappingName hl' ""] at hv
    exact (Option.some.inj hv).symm
  subst hvg
  have hlists := congrArg String.toList heq
  simp only [mappingName,String.toList_ofList,List.append_cancel_left_eq,List.cons.injEq,true_and] at hlists
  exact ⟨rfl,String.toList_injective (doubleHyphens_injective hlists)⟩

end Maki.Lvm
