import SecureABE.Core.Ideal
import SecureABE.Foundations.FaultyDisk
import SecureABE.Revocation.List

/-!
# The list in memory and the list on disk

`revoke_attribute` and `revoke_user` change the list in memory before they save it, and do not change it
back when the save fails. From then on the list in memory is ahead of the file: `tag` and
`is_user_revoked` answer by a revocation that was reported as failed, and a retry counts the epoch up a
second time.

`forall_honest_iff`: over a run of calls, each of whose saves may fail, the list and its file agree after
every call and every failing call leaves the list alone exactly if the only calls that fail are those of
`revoke_user` for users that are revoked already.
-/

namespace SecureABE.Revocation

open Rust SecureABE.Core

variable (D : Codec)

/-! ## Calls -/

/-- A call that changes the list. -/
inductive Revoking
  | attr (baseAttribute : String)
  | user (subject : String)

/-- The list in memory before it is saved. -/
def Revoking.next (rl : RevocationList) : Revoking → RevocationList
  | .attr a => rl.bumped a
  | .user u => rl.withUser u

/-- The call; what `revoke_attribute` returns is dropped. -/
def Revoking.call (rl : RevocationList) :
    Revoking → Prog FileOp.Reply (Outcome RevocationError Unit × RevocationList)
  | .attr a => Prog.bind (rl.revokeAttribute D a) fun r => .pure (r.1.map fun _ => (), r.2)
  | .user u => rl.revokeUser D u

/-- A call and the fault that its save meets, if any. -/
structure Attempt where
  revoking : Revoking
  fault : Option Fault

/-- A call on a list and a disk: whether it returns `Ok`, the list it leaves and the disk. -/
def Attempt.run (a : Attempt) (s : RevocationList × Disk) :
    (Outcome RevocationError Unit × RevocationList) × Disk :=
  (a.revoking.call D s.1).run (FileOp.faulty a.fault) s.2

/-- The list and the disk after a call. -/
def Attempt.after (a : Attempt) (s : RevocationList × Disk) : RevocationList × Disk :=
  ((a.run D s).1.2, (a.run D s).2)

/-- The list and the disk after a run of calls. -/
def afterAll (attempts : List Attempt) (s : RevocationList × Disk) : RevocationList × Disk :=
  attempts.foldl (fun s a => a.after D s) s

/-- What `open` reads back is the list in memory. -/
def Agrees (s : RevocationList × Disk) : Prop :=
  (Fs.exec (RevocationList.open D s.1.path) s.2).1 = .ok s.1

/-- After the call memory and disk agree, and if it fails it has not changed the list in memory. -/
structure Attempt.Honest (a : Attempt) (s : RevocationList × Disk) : Prop where
  agrees : Agrees D (a.after D s)
  unmoved : ∀ e, (a.run D s).1.1 = .error e → (a.after D s).1 = s.1

/-- Nothing is new to the list in memory: the user is revoked already. -/
def Attempt.Idle (a : Attempt) (rl : RevocationList) : Prop :=
  ∃ u, a.revoking = .user u ∧ rl.isUserRevoked u = true

/-! ## One call -/

variable {D}

theorem Revoking.path_next (rl : RevocationList) (c : Revoking) : (c.next rl).path = rl.path := by
  cases c with
  | attr a => rfl
  | user u => exact rl.path_withUser u

/-- A save that succeeds. -/
theorem Attempt.run_of_none {a : Attempt} (h : a.fault = none) (s : RevocationList × Disk) :
    a.run D s = ((.ok (), a.revoking.next s.1),
      s.2.write s.1.path (RevocationList.encode D (a.revoking.next s.1).state)) := by
  obtain ⟨c, fault⟩ := a
  subst h
  rw [← c.path_next s.1]
  cases c with
  | attr a => rfl
  | user u => rfl

/-- A save that fails. -/
theorem Attempt.run_of_some {a : Attempt} {φ : Fault} (h : a.fault = some φ)
    (s : RevocationList × Disk) :
    a.run D s = ((.error (.error (.io φ.error)), a.revoking.next s.1), s.2) := by
  obtain ⟨c, fault⟩ := a
  subst h
  cases c with
  | attr a => rfl
  | user u => rfl

theorem Attempt.after_fst (a : Attempt) (s : RevocationList × Disk) :
    (a.after D s).1 = a.revoking.next s.1 := by
  rw [Attempt.after]
  cases h : a.fault with
  | none => rw [a.run_of_none h]
  | some φ => rw [a.run_of_some h]

/-- A list that was opened agrees with its file. -/
theorem agrees_of_open {path : Path} {d : Disk} {rl : RevocationList}
    (h : (Fs.exec (RevocationList.open D path) d).1 = .ok rl) : Agrees D (rl, d) := by
  have hpath : rl.path = path := by
    rw [RevocationList.open, Fs.exec_bind] at h
    rcases hload : Fs.exec (RevocationState.load D path) d with ⟨e | state, d'⟩
    · rw [hload, Cmd.andThen_error] at h
      cases h
    · rw [hload, Cmd.andThen_ok] at h
      exact congrArg RevocationList.path (Except.ok.inj h).symm
  rwa [Agrees, hpath]

/-- What was saved is read back. -/
theorem agrees_write (hD : D.ReadsShallow) (rl : RevocationList) (d : Disk) :
    Agrees D (rl, d.write rl.path (RevocationList.encode D rl.state)) := by
  have hdepth := RevocationState.depth_toJson rl.state
  have hdecode : RevocationState.decode D (D.toStringPretty rl.state.toJson) = .ok rl.state := by
    rw [RevocationState.decode, hD _ (by omega), ok_bind, RevocationState.fromJson_toJson,
      Outcome.ofExcept_ok]
  have hlookup := Disk.lookup_write_self d rl.path (RevocationList.encode D rl.state)
  have htext : Fs.textOf ((d.write rl.path (RevocationList.encode D rl.state)).read rl.path) =
      .ok (D.toStringPretty rl.state.toJson) := by
    rw [Disk.read_of_lookup hlookup, RevocationList.encode, Fs.textOf_utf8]
  unfold Agrees RevocationList.open RevocationState.load
  simp only [Fs.exec_bind, Fs.exec_exist, Disk.has_of_lookup hlookup, Cmd.andThen_ok, if_true,
    Fs.exec_mapErr, Fs.exec_readToString, htext, Outcome.mapErr_ok, Fs.exec_ofOutcome, hdecode,
    Fs.exec_pure]

/-- **A call changes the list in memory** unless it revokes a user who is revoked already. -/
theorem next_eq_iff {a : Attempt} {rl : RevocationList} : a.revoking.next rl = rl ↔ a.Idle rl := by
  obtain ⟨c, fault⟩ := a
  cases c with
  | attr b =>
    constructor
    · intro h
      have hepoch : rl.currentEpoch b + 1 = rl.currentEpoch b :=
        (rl.currentEpoch_bumped_self b).symm.trans (congrArg (·.currentEpoch b) h)
      -- also at the top of the range the next epoch is another one
      have hnat := congrArg UInt64.toNat hepoch
      rw [UInt64.toNat_add] at hnat
      have hlt := UInt64.toNat_lt (rl.currentEpoch b)
      simp at hnat
      omega
    · rintro ⟨u, hu, -⟩
      cases hu
  | user u =>
    constructor
    · intro h
      refine ⟨u, rfl, ?_⟩
      by_contra hnot
      rw [RevocationList.isUserRevoked] at hnot
      have hlength := congrArg (fun rl => rl.state.revokedUsers.length) h
      change (rl.withUser u).state.revokedUsers.length = _ at hlength
      rw [RevocationList.withUser, if_neg hnot, List.length_append] at hlength
      simp at hlength
    · rintro ⟨v, hv, hrevoked⟩
      obtain rfl := Revoking.user.inj hv
      exact if_pos hrevoked

/-- A call is honest, after one that was, unless it fails with something new in memory. -/
theorem Attempt.honest_iff (hD : D.ReadsShallow) {a : Attempt} {s : RevocationList × Disk}
    (hs : Agrees D s) : a.Honest D s ↔ (a.fault ≠ none → a.Idle s.1) := by
  cases h : a.fault with
  | none =>
    have hrun := a.run_of_none (D := D) h s
    refine ⟨fun _ hne => absurd rfl hne, fun _ => ⟨?_, fun e he => ?_⟩⟩
    · rw [Attempt.after, hrun]
      have hagrees := agrees_write hD (a.revoking.next s.1) s.2
      rwa [Revoking.path_next] at hagrees
    · rw [hrun] at he
      cases he
  | some φ =>
    have hrun := a.run_of_some (D := D) h s
    rw [← next_eq_iff]
    constructor
    · intro hhonest _
      rw [← a.after_fst (D := D)]
      exact hhonest.unmoved _ (by rw [hrun])
    · intro hidle
      have hnext := hidle (by simp)
      have hafter : a.after D s = s := by rw [Attempt.after, hrun, hnext]
      exact ⟨by rwa [hafter], fun _ _ => by rw [hafter]⟩

/-! ## Runs -/

variable (D) in
/-- A condition on calls and the state they are made in holds all along a run. -/
def Along (P : Attempt → RevocationList × Disk → Prop) : List Attempt → RevocationList × Disk → Prop
  | [], _ => True
  | a :: attempts, s => P a s ∧ Along P attempts (a.after D s)

theorem along_iff {P : Attempt → RevocationList × Disk → Prop} {attempts : List Attempt}
    {s : RevocationList × Disk} : Along D P attempts s ↔
      ∀ before a after, attempts = before ++ a :: after → P a (afterAll D before s) := by
  induction attempts generalizing s with
  | nil => simp [Along]
  | cons a attempts ih =>
    rw [Along, ih]
    constructor
    · rintro ⟨ha, hrest⟩ before b after heq
      cases before with
      | nil =>
        obtain ⟨rfl, -⟩ := List.cons.inj heq
        exact ha
      | cons c before =>
        obtain ⟨rfl, heq'⟩ := List.cons.inj heq
        exact hrest before b after heq'
    · intro h
      exact ⟨h [] a attempts rfl, fun before b after heq => h (a :: before) b after (heq ▸ rfl)⟩

/-- A list that agrees with its file still does after a run of honest calls. -/
theorem along_honest_iff (hD : D.ReadsShallow) {attempts : List Attempt} {s : RevocationList × Disk}
    (hs : Agrees D s) : Along D (fun a s => a.Honest D s) attempts s ↔
      Along D (fun a s => a.fault ≠ none → a.Idle s.1) attempts s := by
  induction attempts generalizing s with
  | nil => rfl
  | cons a attempts ih =>
    unfold Along
    rw [Attempt.honest_iff hD hs]
    refine and_congr_right fun hidle => ih ?_
    exact ((Attempt.honest_iff hD hs).2 hidle).agrees

/-- **When memory and disk agree.** In a run of calls on a list that was opened from a file, after every
call the list in memory is what `open` reads back, and every failing call leaves it as it was, exactly if
the only calls that fail revoke users who are revoked already. -/
theorem forall_honest_iff (hD : D.ReadsShallow) {path : Path} {d : Disk} {rl : RevocationList}
    (hopen : (Fs.exec (RevocationList.open D path) d).1 = .ok rl) (attempts : List Attempt) :
    (∀ before a after, attempts = before ++ a :: after → a.Honest D (afterAll D before (rl, d))) ↔
      ∀ before a after, attempts = before ++ a :: after → a.fault ≠ none →
        a.Idle (afterAll D before (rl, d)).1 := by
  have hagrees := agrees_of_open hopen
  exact along_iff.symm.trans ((along_honest_iff hD hagrees).trans
    (along_iff (P := fun a s => a.fault ≠ none → a.Idle s.1)))

/-- A list without entries, which is what is opened where there is no file. -/
def exampleList : RevocationList := ⟨⟨["revocation.json"]⟩, default⟩

theorem open_exampleList :
    (Fs.exec (RevocationList.open serdeJson ⟨["revocation.json"]⟩) ⟨∅, []⟩).1 = .ok exampleList := rfl

/-- A first revocation, whose save fails. -/
def exampleFailure : Attempt := ⟨.attr "clearance>=4", some ⟨.other "No space left on device", 0⟩⟩

theorem forall_honest_iff_exampleFailure :
    (∀ before a after, [exampleFailure, ⟨exampleFailure.revoking, none⟩] = before ++ a :: after →
      a.Honest serdeJson (afterAll serdeJson before (exampleList, ⟨∅, []⟩))) ↔
      ∀ before a after, [exampleFailure, ⟨exampleFailure.revoking, none⟩] = before ++ a :: after →
        a.fault ≠ none → a.Idle (afterAll serdeJson before (exampleList, ⟨∅, []⟩)).1 :=
  forall_honest_iff readsBackShallow_serdeJson.shallow open_exampleList _

/-- The failed call has changed the list in memory, and a retry counts the epoch up a second time. -/
theorem not_honest_exampleFailure : ¬ exampleFailure.Honest serdeJson (exampleList, ⟨∅, []⟩) ∧
    (afterAll serdeJson [exampleFailure, ⟨exampleFailure.revoking, none⟩]
      (exampleList, ⟨∅, []⟩)).1.currentEpoch "clearance>=4" = 2 := by
  refine ⟨fun h => ?_, by decide⟩
  have hunmoved := congrArg (·.currentEpoch "clearance>=4") (h.unmoved _ rfl)
  revert hunmoved
  decide

end SecureABE.Revocation
