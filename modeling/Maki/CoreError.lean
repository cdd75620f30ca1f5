import Maki.AbStore

/-! Errors of the volume's operations and of recovery (`maki_core::error`, `recovery`). -/
namespace Maki

inductive CoreError where
  | Io (kind : ErrorKind)
  | Format (error : FormatError)
  | Corrupt (what : String)
  | Durability (what : String)
  | Invalid (what : String)
  /-- A failed `expect`: the process aborts. -/
  | Panic (what : String)
  deriving DecidableEq

inductive RecoveryError where
  | AlreadyAttached
  | Corrupt (what : String)
  | Format (error : FormatError)
  | Io (kind : ErrorKind)
  deriving DecidableEq

/-- `Display` of a format error. A decoder never reports an I/O error. -/
def FormatError.text : FormatError → String
  | .Truncated what => "truncated input: " ++ what
  | .BadMagic what => "bad magic: " ++ what
  | .BadChecksum what => "bad checksum: " ++ what
  | .Unsupported what => "unsupported version: " ++ what
  | .Invalid what => "invalid: " ++ what
  | .Overflow what => "integer overflow: " ++ what
  | .AlreadyExists what => "already exists: " ++ what
  | .Io kind => kind.text

/-- `From<CoreError> for RecoveryError`. -/
def RecoveryError.ofCore : CoreError → RecoveryError
  | .Io kind => .Io kind
  | .Format error => .Format error
  | .Corrupt what => .Corrupt ("corrupt: " ++ what)
  | .Durability what => .Corrupt ("durability violation: " ++ what)
  | .Invalid what => .Corrupt ("invalid request: " ++ what)
  | .Panic what => .Corrupt what

section

variable {μ α : Type}

/-- `?` on an I/O or format result inside an operation of the volume, or of recovery. -/
def coreIo (p : Io μ ErrorKind α) : Io μ CoreError α := Prog.mapErr .Io p
def coreFormat (p : Io μ FormatError α) : Io μ CoreError α := Prog.mapErr .Format p
def recoveryIo (p : Io μ ErrorKind α) : Io μ RecoveryError α := Prog.mapErr .Io p

theorem Io.Reads.recoveryIo {p : Io μ ErrorKind α} {get : Disk → α} (h : Io.Reads p get) :
    Io.Reads (Maki.recoveryIo p) get := h.mapErr _

theorem Io.Checks.recoveryIo {p : Io μ ErrorKind α} {get : Disk → Except ErrorKind α}
    (h : Io.Checks p get) : Io.Checks (Maki.recoveryIo p) fun d => (get d).mapError .Io := h.mapErr _

end
end Maki
