import SecureABE.Core.Crates
import SecureABE.Foundations.FileSystem

/-!
# The audit log

`audit/src/lib.rs`: a file with the JSON text of one event on each line. `record` appends the text
and then the end of the line (`exec_record`).
-/

namespace SecureABE.Audit

open Rust SecureABE.Core

inductive AuditError
  | io (e : IoError)
  | serde (msg : String)
  deriving DecidableEq, Repr

/-- The derived `Display`. -/
def AuditError.toText : AuditError → String
  | .io e => "io error: " ++ e.toText
  | .serde msg => "serialization error: " ++ msg

@[ext]
structure AuditEvent where
  timestampUnix : UInt64
  actor : String
  action : String
  subject : String
  detail : String
  deriving DecidableEq, Repr

/-- The derived `Serialize`. -/
def AuditEvent.toJson (event : AuditEvent) : Json :=
  .obj [("timestamp_unix", .num event.timestampUnix.toNat), ("actor", .str event.actor),
    ("action", .str event.action), ("subject", .str event.subject), ("detail", .str event.detail)]

structure AuditLog where
  path : Path

def AuditLog.open (path : Path) : AuditLog := { path }

namespace AuditLog

variable (D : Codec)

/-- The line of an event. -/
def line (event : AuditEvent) : Bytes := utf8 (D.toString event.toJson) ++ utf8 "\n"

def record (log : AuditLog) (event : AuditEvent) : FileCmd AuditError Unit := do
  Cmd.mapErr .io (Fs.openAppend log.path)
  let text := D.toString event.toJson
  Cmd.mapErr .io (Fs.append log.path (utf8 text))
  Cmd.mapErr .io (Fs.append log.path (utf8 "\n"))

theorem exec_record (log : AuditLog) (event : AuditEvent) (d : Disk) :
    Fs.exec (log.record D event) d = (.ok (), d.append log.path (line D event)) := by
  simp only [record, Fs.exec_bind, Fs.exec_mapErr, Fs.exec_openAppend, Fs.exec_append,
    Outcome.mapErr_ok, Cmd.andThen_ok, Disk.append_append, List.nil_append, line]

end AuditLog

end SecureABE.Audit
