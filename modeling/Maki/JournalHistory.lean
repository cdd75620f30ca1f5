import Maki.JournalFrame
import Maki.WriterRun

/-! What a journal writer keeps to over whole runs, whatever of it fails: the order of its sequences
and its durable boundary, and the data files of the volume. -/
namespace Maki
namespace JournalWriter

open Prog hiding pure bind throw get modify

section Runs

variable [Crc32] [DefaultHasher]

theorem Call.run_held {d₀ : Disk} (c : Call) : Keeps (Held d₀ []) c.run := by
  cases c with
  | append unitIndex payload => exact append_held unitIndex payload
  | sync => exact sync_held
  | deleteCovered c => exact deleteCovered_held c

/-- The counters keep their order and are not behind the given ones. -/
def Ahead (durable next : ℕ) (t : JournalWriter × Disk) : Prop :=
  durable ≤ t.1.durableSequence ∧ t.1.durableSequence ≤ t.1.appendedSequence ∧
    t.1.appendedSequence < t.1.nextSequence ∧ next ≤ t.1.nextSequence

theorem Call.run_ahead {durable next : ℕ} (c : Call) : Runs (Ahead durable next) c.run := by
  apply Triple.ofEach
  rintro t ⟨hd,hda,han,hn⟩
  have hat : ∀ u, u = t → At t.1.durableSequence t.1.appendedSequence t.1.nextSequence u := by
    rintro _ rfl
    exact ⟨rfl,rfl,rfl⟩
  cases c with
  | append unitIndex payload =>
    refine (append_counters unitIndex payload).conseq hat ?_ ?_ fun _ ht => ht
    all_goals
      intro _ u hu
      simp only [Ahead,Moved,At] at hu ⊢
      omega
  | sync =>
    refine sync_counters.conseq hat ?_ ?_ fun _ ht => ht
    all_goals
      intro _ u hu
      simp only [Ahead,At] at hu ⊢
      omega
  | deleteCovered c =>
    refine (deleteCovered_counters c).conseq hat ?_ ?_ fun _ _ => trivial
    all_goals
      intro _ u hu
      simp only [Ahead,At] at hu ⊢
      omega

variable {volumeUuid : BitVec 128} {size durable index c : ℕ} {segments : List SegmentInfo}
  {proof : DurableProof} {disk : Disk} {t t' : JournalWriter × Disk} {fs fs' : List Fault}
  (hrun : Run ((resume volumeUuid size durable index segments proof).allowCoveredHolesBelow c,disk) t)

include hrun

/-- In every state a run reaches: the durable boundary does not go back from there on; a record that is
accepted there is above the recovered boundary and above the boundary after it; and a record that is
accepted later has a greater sequence. -/
theorem sequences_ascend :
    (∀ v, Run t v → t.1.durableSequence ≤ v.1.durableSequence) ∧
    ∀ unit payload fs fs' n t', append unit payload fs t = (.ok n,fs',t') →
      durable < n ∧ t'.1.durableSequence < n ∧
      ∀ u unit' payload' gs gs' n' u', Run t' u → append unit' payload' gs u = (.ok n',gs',u') → n < n' := by
  have hstart : Ahead durable (durable+1) t :=
    hrun.keeps Call.run_ahead ⟨Nat.le_refl _,Nat.le_refl _,Nat.lt_succ_self _,Nat.le_refl _⟩
  refine ⟨fun v hv => ?_,fun unit payload fs fs' n t' hfirst => ?_⟩
  · have hahead : Ahead t.1.durableSequence 0 t := ⟨Nat.le_refl _,hstart.2.1,hstart.2.2.1,Nat.zero_le _⟩
    exact (hv.keeps Call.run_ahead hahead).1
  · have hone := append_counters unit payload fs t ⟨rfl,rfl,rfl⟩
    rw [hfirst] at hone
    obtain ⟨rfl,hone⟩ := hone
    have hahead : durable < t.1.nextSequence ∧ t'.1.durableSequence < t.1.nextSequence ∧
        Ahead 0 (t.1.nextSequence+1) t' := by
      simp only [Ahead,At] at hstart hone ⊢
      omega
    refine ⟨hahead.1,hahead.2.1,fun u unit' payload' gs gs' n' u' hbetween hsecond => ?_⟩
    have hlater := hbetween.keeps Call.run_ahead hahead.2.2
    have htwo := append_counters unit' payload' gs u ⟨rfl,rfl,rfl⟩
    rw [hsecond] at htwo
    exact htwo.1 ▸ hlater.2.2.2

/-- Every data file keeps its name, its bytes and what of it is dirty, also when the last call is cut
short. -/
theorem data_files_untouched (hdisk : disk.Wf) (call : Call) {o : Outcome CoreError ℕ}
    (hcall : call.run fs t = (o,fs',t')) (shard : ℕ) :
    t'.2.volatile (.shardData shard) = disk.volatile (.shardData shard) ∧
      ∀ i, disk.volatile (.shardData shard) = some i → t'.2.inodes i = disk.inodes i := by
  have hheld : Held disk [] t := hrun.keeps (fun c => .ofKeeps c.run_held)
    ⟨.refl hdisk,by simp [Handle,allowCoveredHolesBelow,resume],by simp⟩
  have hb : SlotStore.Beside disk t'.2 := by
    have h := call.run_held fs t hheld
    rw [hcall] at h
    cases o <;> exact h.beside
  exact ⟨hb.volatile shard,hb.inode shard⟩

end Runs

section Sample

attribute [local instance] instCrc32 instDefaultHasher

/-- An append that fails, two that succeed. -/
theorem sequences_ascend_after_short_write : (append 3 [1,2] [] afterShort).1 = .ok 3 ∧
    (append 4 [5] [] afterAppend).1 = .ok 4 ∧ afterAppend.1.durableSequence < 3 ∧ 3 < 4 := by
  have hshort : ((Call.append 3 [1,2]).run shortWrite sampleWriter).1 ≠ .lost := by decide +kernel
  have hfirst : (append 3 [1,2] [] afterShort).1 = .ok 3 := by decide +kernel
  have hsecond : (append 4 [5] [] afterAppend).1 = .ok 4 := by decide +kernel
  obtain ⟨-,hb,hlater⟩ := (sequences_ascend (Run.start.result hshort)).2 3 [1,2] [] _ 3 _
    (eq_of_outcome _ hfirst)
  exact ⟨hfirst,hsecond,hb,hlater _ 4 [5] [] _ 4 _ .start (eq_of_outcome _ hsecond)⟩

theorem data_files_untouched_append :
    ((Call.append 3 [1,2]).run shortWrite
      (sampleWriter.1,sampleFiles.create (.shardData 0))).2.2.2.volatile (.shardData 0) = some 4 := by
  have hcall := data_files_untouched (t := (sampleWriter.1,_)) .start
    (sampleFiles_wf.create (.shardData 0)) (.append 3 [1,2])
    (eq_of_outcome ((Call.append 3 [1,2]).run shortWrite _) rfl) 0
  exact hcall.1.trans (Disk.volatile_create _ _)

end Sample
end JournalWriter
end Maki
