import SecureABE.Audit.Log
import SecureABE.Foundations.Lines

/-!
# Reading the audit log

`AuditLog::read_all` takes the file line by line, skips blank lines and decodes the others; the first
line that is not an event ends it with an error. `exec_readAll` gives its result by the contents of the
file alone.

A line on which the texts of several events stand is read if they are no more than one
(`readLines_lines`): `serde_json` refuses what comes after the first.
-/

namespace SecureABE.Audit

open Rust SecureABE.Core

/-- The derived `Deserialize`. -/
def AuditEvent.fromJson (j : Json) : Json.Decoded AuditEvent := do
  match ← Json.structFields ["timestamp_unix", "actor", "action", "subject", "detail"] j with
  | [timestampUnix, actor, action, subject, detail] => do
    let timestampUnix ← timestampUnix.asU64
    let actor ← actor.asStr
    let action ← action.asStr
    let subject ← subject.asStr
    let detail ← detail.asStr
    .ok { timestampUnix, actor, action, subject, detail }
  | _ => .error "invalid length"

/-- **A printed event is read back.** -/
theorem AuditEvent.fromJson_toJson (event : AuditEvent) : fromJson event.toJson = .ok event := by
  have hfields : Json.structFields ["timestamp_unix", "actor", "action", "subject", "detail"]
      event.toJson = .ok [_, _, _, _, _] := Json.structFields_obj rfl (by decide)
  rw [fromJson, hfields]
  simp only [ok_bind, Json.asStr_str, Json.asU64_num]

theorem AuditEvent.depth_toJson (event : AuditEvent) : event.toJson.depth = 1 := rfl

variable (D : Codec)

/-- `serde_json::from_str` of a line. -/
def decodeEvent (line : String) : Outcome AuditError AuditEvent :=
  Outcome.ofExcept .serde (D.fromStr line >>= AuditEvent.fromJson)

/-- The loop over the lines, with the events read so far. -/
def readLines : List Bytes → List AuditEvent → Outcome AuditError (List AuditEvent)
  | [], events => .ok events
  | line :: lines, events => do
    let line ← Outcome.okOr (.io .invalidData) (fromUtf8 line)
    if trim line.toList = [] then readLines lines events
    else do
      let event ← decodeEvent D line
      readLines lines (events ++ [event])

namespace AuditLog

def readAll (log : AuditLog) : FileCmd AuditError (List AuditEvent) := do
  let there ← Fs.exist log.path
  if there = false then pure []
  else do
    let file ← Cmd.mapErr .io (Fs.read log.path)
    Cmd.ofOutcome (readLines D (byteLines file) [])

/-- **What is read** is what the lines of the file hold; of a file that is not there, nothing. -/
theorem exec_readAll (log : AuditLog) {d : Disk} (hdir : log.path ∉ d.dirs) :
    (Fs.exec (log.readAll D) d).1 = readLines D (byteLines (d.contents log.path)) [] := by
  rw [readAll, Fs.exec_bind, Fs.exec_exist, Cmd.andThen_ok, Disk.contents]
  cases hlookup : d.files.lookup log.path with
  | none =>
    have hmem : log.path ∉ d.files := AList.lookup_eq_none.1 hlookup
    rw [if_pos (by simp [Disk.has, hmem, hdir])]
    rfl
  | some b =>
    rw [if_neg (by simp [Disk.has_of_lookup hlookup]), Fs.exec_bind, Fs.exec_mapErr, Fs.exec_read,
      Disk.read_of_lookup hlookup]
    rfl

end AuditLog

/-! ## Lines of texts -/

/-- The texts of some events one after another. -/
def textOf (events : List AuditEvent) : String :=
  events.foldr (fun event text => D.toString event.toJson ++ text) ""

theorem textOf_singleton (event : AuditEvent) : textOf D [event] = D.toString event.toJson :=
  String.append_empty

theorem textOf_cons (event : AuditEvent) (events : List AuditEvent) :
    textOf D (event :: events) = D.toString event.toJson ++ textOf D events := rfl

theorem textOf_append (events events' : List AuditEvent) :
    textOf D (events ++ events') = textOf D events ++ textOf D events' := by
  induction events with
  | nil => exact String.empty_append.symm
  | cons event events ih => rw [List.cons_append, textOf_cons, ih, textOf_cons, String.append_assoc]

variable {D}

theorem decodeEvent_toString (hR : D.ReadsCompact) (event : AuditEvent) :
    decodeEvent D (D.toString event.toJson) = .ok event := by
  rw [decodeEvent, hR.compact _ (by rw [event.depth_toJson]; omega), ok_bind,
    AuditEvent.fromJson_toJson, Outcome.ofExcept_ok]

variable (hP : D.PrintsCompact)
include hP

/-- The text of an event is in braces. -/
theorem exists_toString_eq (event : AuditEvent) :
    ∃ inner : String, D.toString event.toJson = "\x7b" ++ (inner ++ "\x7d") := by
  obtain ⟨inner, h⟩ := Json.exists_render_obj Json.compact 0
    [("timestamp_unix", .num event.timestampUnix.toNat), ("actor", .str event.actor),
      ("action", .str event.action), ("subject", .str event.subject), ("detail", .str event.detail)]
  refine ⟨String.ofList inner, ?_⟩
  rw [hP, AuditEvent.toJson, h, ← String.toList_inj]
  simp only [String.toList_append, String.toList_ofList]
  rfl

/-- A line of texts is not blank. -/
theorem trim_textOf_cons (event : AuditEvent) (events : List AuditEvent) :
    trim (textOf D (event :: events)).toList ≠ [] := by
  obtain ⟨inner, h⟩ := exists_toString_eq hP event
  have hbrace : '{' ∈ (textOf D (event :: events)).toList := by
    rw [textOf_cons, h, String.toList_append, String.toList_append]
    exact List.mem_append_left _ (List.mem_append_left _ (by decide))
  exact trim_ne_nil hbrace (by decide)

theorem utf8_textOf_cons (event : AuditEvent) (events : List AuditEvent) :
    utf8 (textOf D (event :: events)) ≠ [] := by
  obtain ⟨inner, h⟩ := exists_toString_eq hP event
  rw [textOf_cons, h, utf8_append, utf8_append]
  simp [show utf8 "\x7b" = [123] by decide]

/-- A line of texts does not end with a carriage return. -/
theorem getLast_utf8_textOf (events : List AuditEvent) :
    (utf8 (textOf D events)).getLast? ≠ some 13 := by
  rcases events.eq_nil_or_concat with rfl | ⟨events, event, rfl⟩
  · change (utf8 "").getLast? ≠ some 13
    decide
  · obtain ⟨inner, h⟩ := exists_toString_eq hP event
    rw [List.concat_eq_append, textOf_append, textOf_singleton, h, utf8_append, utf8_append, utf8_append]
    simp [show utf8 "\x7d" = [125] by decide]

/-- **The text of an event** does not go on to the text of another one. -/
theorem eq_nil_of_toString_append {event event' : AuditEvent} {b : Bytes}
    (h : utf8 (D.toString event.toJson) ++ b = utf8 (D.toString event'.toJson)) : b = [] := by
  obtain ⟨u, hu, rfl⟩ := exists_of_utf8_append h
  rw [hP, hP, String.toList_ofList, String.toList_ofList] at hu
  rw [Json.eq_nil_of_render_obj_append Json.blank_compact hu.symm]
  rfl

/-- What an append leaves of an event when it fails does not begin with an event. -/
theorem not_prefix_of_appendPart (event event' : AuditEvent) (n : ℕ) :
    ¬ utf8 (D.toString event.toJson) <+: (utf8 (D.toString event'.toJson)).dropLast.take n := by
  intro hpart
  have hlast := hpart.trans (List.take_prefix n _)
  obtain ⟨b, hb⟩ := hlast.trans (List.dropLast_prefix _)
  have hwhole := eq_nil_of_toString_append hP hb
  rw [hwhole, List.append_nil] at hb
  have hlength := hlast.length_le
  have hpos := List.length_pos_of_ne_nil (utf8_textOf_cons hP event' [])
  rw [textOf_singleton] at hpos
  rw [hb, List.length_dropLast] at hlength
  omega

variable (hR : D.ReadsCompact)
include hR

/-- Two events on one line are refused. -/
theorem decodeEvent_textOf (event event' : AuditEvent) (events : List AuditEvent) :
    ∃ msg, decodeEvent D (textOf D (event :: event' :: events)) = Outcome.err (.serde msg) := by
  obtain ⟨inner, h⟩ := exists_toString_eq hP event'
  obtain ⟨msg, hmsg⟩ := hR.trailing event.toJson ((inner ++ "\x7d") ++ textOf D events)
  refine ⟨msg, ?_⟩
  rw [decodeEvent, textOf_cons, textOf_cons, h, String.append_assoc, hmsg, error_bind,
    Outcome.ofExcept_error]

/-- The step of the loop over the lines. -/
theorem readLines_cons (line : List AuditEvent) (lines : List Bytes) (read : List AuditEvent)
    (h : line.length ≤ 1) :
    readLines D (utf8 (textOf D line) :: lines) read = readLines D lines (read ++ line) := by
  rw [readLines, fromUtf8_utf8, Outcome.okOr_some, ok_bind]
  rcases line with _ | ⟨event, _ | ⟨event', events⟩⟩
  · rw [if_pos (by rfl), List.append_nil]
  · rw [if_neg (trim_textOf_cons hP event []), textOf_singleton, decodeEvent_toString hR, ok_bind]
  · simp at h

theorem readLines_cons_error (line : List AuditEvent) (lines : List Bytes) (read : List AuditEvent)
    (h : ¬ line.length ≤ 1) :
    ∃ msg, readLines D (utf8 (textOf D line) :: lines) read = Outcome.err (.serde msg) := by
  rcases line with _ | ⟨event, _ | ⟨event', events⟩⟩
  · simp at h
  · simp at h
  · obtain ⟨msg, hmsg⟩ := decodeEvent_textOf hP hR event event' events
    refine ⟨msg, ?_⟩
    rw [readLines, fromUtf8_utf8, Outcome.okOr_some, ok_bind, if_neg (trim_textOf_cons hP event _), hmsg]
    rfl

/-- **Lines of at most one event** are read. -/
theorem readLines_lines {lines : List (List AuditEvent)} (h : ∀ line ∈ lines, line.length ≤ 1)
    (read : List AuditEvent) :
    readLines D (lines.map fun line => utf8 (textOf D line)) read = .ok (read ++ lines.flatten) := by
  induction lines generalizing read with
  | nil => rw [List.flatten_nil, List.append_nil]; rfl
  | cons line lines ih =>
    rw [List.map_cons, readLines_cons hP hR line _ read (h line List.mem_cons_self),
      ih (fun l hl => h l (List.mem_cons_of_mem _ hl)), List.flatten_cons, List.append_assoc]

/-- **A line of several events** ends the reading. -/
theorem readLines_lines_error {lines : List (List AuditEvent)}
    (h : ¬ ∀ line ∈ lines, line.length ≤ 1) (read : List AuditEvent) :
    ∃ msg, readLines D (lines.map fun line => utf8 (textOf D line)) read = Outcome.err (.serde msg) := by
  induction lines generalizing read with
  | nil => simp at h
  | cons line lines ih =>
    rw [List.map_cons]
    by_cases hline : line.length ≤ 1
    · rw [readLines_cons hP hR line _ read hline]
      refine ih (fun hall => h fun l hl => ?_) _
      rcases List.mem_cons.1 hl with rfl | hl
      · exact hline
      · exact hall l hl
    · exact readLines_cons_error hP hR line _ read hline

end SecureABE.Audit
