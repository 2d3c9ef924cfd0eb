import SecureABE.Revocation.Saving

/-!
# Epochs along a run

A list is opened from a file, and then calls that change it and reopenings follow, all of which succeed
(`Run`). Each revocation of an attribute adds one to its epoch (`Run.currentEpoch_eq`), in the arithmetic
of a release build, which wraps: after the largest epoch comes the first one again.

`retires_iff`: an epoch that has been left never comes back, and every revocation returns a larger one than
all before, exactly if the counter stays below the top of its range all along. The format of the file
admits every epoch, so the first revocation can be the one that wraps (`not_retires_exampleTop`).
-/

namespace SecureABE.Revocation

open Rust SecureABE.Core

variable (D : Codec)

/-! ## Runs of successful calls -/

/-- A call that has succeeded, with what it has returned. -/
inductive Success
  | revokedAttribute (baseAttribute : String) (epoch : UInt64)
  | revokedUser (subject : String)
  | reopened

/-- The call revokes the attribute. -/
def Success.revokes (a : String) : Success → Bool
  | .revokedAttribute b _ => b == a
  | _ => false

/-- How many of the calls revoke the attribute. -/
def timesRevoked (a : String) (es : List Success) : ℕ := es.countP (Success.revokes a)

/-- From a list and a disk to those that a successful call leaves. -/
inductive Step : RevocationList × Disk → Success → RevocationList × Disk → Prop
  | revokeAttribute {rl rl' : RevocationList} {d d' : Disk} {a : String} {epoch : UInt64}
      {fault : Option Fault}
      (h : (rl.revokeAttribute D a).run (FileOp.faulty fault) d = ((.ok epoch, rl'), d')) :
      Step (rl, d) (.revokedAttribute a epoch) (rl', d')
  | revokeUser {rl rl' : RevocationList} {d d' : Disk} {u : String} {fault : Option Fault}
      (h : (rl.revokeUser D u).run (FileOp.faulty fault) d = ((.ok (), rl'), d')) :
      Step (rl, d) (.revokedUser u) (rl', d')
  | reopen {rl rl' : RevocationList} {d d' : Disk}
      (h : Fs.exec (RevocationList.open D rl.path) d = (.ok rl', d')) :
      Step (rl, d) .reopened (rl', d')

/-- Any number of successful calls, one after another. -/
inductive Run : RevocationList × Disk → List Success → RevocationList × Disk → Prop
  | nil {s : RevocationList × Disk} : Run s [] s
  | cons {s s' s'' : RevocationList × Disk} {e : Success} {es : List Success}
      (h : Step D s e s') (hs : Run s' es s'') : Run s (e :: es) s''

/-- What the epochs of an attribute are for, at every point of a run. -/
structure Retires (s : RevocationList × Disk) (es : List Success) (a : String) : Prop where
  /-- The tag before a revocation is never again the tag of the attribute. -/
  retired : ∀ es₁ epoch es₂ es₃ s₁ s₂, es = es₁ ++ .revokedAttribute a epoch :: (es₂ ++ es₃) →
    Run D s es₁ s₁ → Run D s (es₁ ++ .revokedAttribute a epoch :: es₂) s₂ → s₂.1.tag a ≠ s₁.1.tag a
  /-- A revocation returns an epoch above all that the attribute has had. -/
  above : ∀ es₁ es₂ epoch es₃ s₁, es = es₁ ++ (es₂ ++ .revokedAttribute a epoch :: es₃) →
    Run D s es₁ s₁ → s₁.1.currentEpoch a < epoch
  /-- A revocation leaves the tags of the other attributes alone. -/
  others : ∀ es₁ epoch es₂ s₁ s₂, es = es₁ ++ .revokedAttribute a epoch :: es₂ → Run D s es₁ s₁ →
    Step D s₁ (.revokedAttribute a epoch) s₂ → ∀ b, b ≠ a → s₂.1.tag b = s₁.1.tag b

variable {D}

theorem Run.append {s s' s'' : RevocationList × Disk} {es es' : List Success} (h : Run D s es s')
    (h' : Run D s' es' s'') : Run D s (es ++ es') s'' := by
  induction h with
  | nil => exact h'
  | cons hstep hs ih => exact .cons hstep (ih h')

theorem run_append {s s'' : RevocationList × Disk} {es es' : List Success} :
    Run D s (es ++ es') s'' ↔ ∃ s', Run D s es s' ∧ Run D s' es' s'' := by
  constructor
  · intro h
    induction es generalizing s with
    | nil => exact ⟨s, .nil, h⟩
    | cons e es ih =>
      obtain - | ⟨hstep, hs⟩ := h
      obtain ⟨s', h, h'⟩ := ih hs
      exact ⟨s', .cons hstep h, h'⟩
  · rintro ⟨s', h, h'⟩
    exact h.append h'

/-! ## Counting -/

@[simp] theorem timesRevoked_nil (a : String) : timesRevoked a [] = 0 := rfl

@[simp] theorem timesRevoked_append (a : String) (es es' : List Success) :
    timesRevoked a (es ++ es') = timesRevoked a es + timesRevoked a es' := List.countP_append

@[simp] theorem timesRevoked_cons_self (a : String) (epoch : UInt64) (es : List Success) :
    timesRevoked a (.revokedAttribute a epoch :: es) = timesRevoked a es + 1 :=
  List.countP_cons_of_pos (by simp [Success.revokes])

theorem timesRevoked_cons_of_ne {e : Success} {a : String} (h : ∀ epoch, e ≠ .revokedAttribute a epoch)
    (es : List Success) : timesRevoked a (e :: es) = timesRevoked a es := by
  apply List.countP_cons_of_neg
  cases e with
  | revokedAttribute b epoch =>
    have hne : b ≠ a := fun hb => h epoch (hb ▸ rfl)
    simp [Success.revokes, hne]
  | revokedUser u | reopened => simp [Success.revokes]

/-- A counter that stays in its range. -/
theorem toNat_add_ofNat {x : UInt64} {k : ℕ} (h : x.toNat + k < 2 ^ 64) :
    (x + UInt64.ofNat k).toNat = x.toNat + k := by
  rw [UInt64.toNat_add, UInt64.toNat_ofNat_of_lt' (by rw [UInt64.size]; omega)]
  omega

/-- The next value of a counter is larger, unless it wraps. -/
theorem lt_add_one_iff {x : UInt64} : x < x + 1 ↔ x.toNat + 1 < 2 ^ 64 := by
  have hlt := UInt64.toNat_lt x
  rw [UInt64.lt_iff_toNat_lt, UInt64.toNat_add, UInt64.toNat_one]
  omega

/-! ## One call -/

/-- The list after a successful call. -/
def Success.next (rl : RevocationList) : Success → RevocationList
  | .revokedAttribute a _ => rl.bumped a
  | .revokedUser u => rl.withUser u
  | .reopened => rl

/-- A list that agrees with its file is opened again. -/
theorem Agrees.exec_open {s : RevocationList × Disk} (h : Agrees D s) :
    Fs.exec (RevocationList.open D s.1.path) s.2 = (.ok s.1, s.2) := by
  have hreads := reads_open D s.1.path s.2
  rwa [h] at hreads

/-- **What a successful call does** to a list that agrees with its file. -/
theorem Step.spec (hD : D.ReadsShallow) {s s' : RevocationList × Disk} {e : Success}
    (h : Step D s e s') (hs : Agrees D s) : Agrees D s' ∧ s'.1 = e.next s.1 ∧
      ∀ a epoch, e = .revokedAttribute a epoch → epoch = s.1.currentEpoch a + 1 := by
  cases h with
  | @revokeAttribute rl rl' d d' a epoch fault h =>
    cases fault with
    | none =>
      cases h
      refine ⟨agrees_write hD (rl.bumped a) d, rfl, ?_⟩
      rintro b epoch ⟨⟩
      rfl
    | some φ => cases h
  | @revokeUser rl rl' d d' u fault h =>
    cases fault with
    | none =>
      cases h
      refine ⟨agrees_write hD (rl.withUser u) d, rfl, ?_⟩
      rintro b epoch ⟨⟩
    | some φ => cases h
  | @reopen rl rl' d d' h =>
    cases hs.exec_open.symm.trans h
    refine ⟨hs, rfl, ?_⟩
    rintro b epoch ⟨⟩

/-- An epoch grows with the revocations of its attribute only. -/
theorem Success.currentEpoch_next (e : Success) (rl : RevocationList) (a : String) :
    (e.next rl).currentEpoch a = rl.currentEpoch a + UInt64.ofNat (timesRevoked a [e]) := by
  by_cases h : ∃ epoch, e = .revokedAttribute a epoch
  · obtain ⟨epoch, rfl⟩ := h
    rw [next, rl.currentEpoch_bumped_self, timesRevoked_cons_self]
    rfl
  · rw [timesRevoked_cons_of_ne fun epoch he => h ⟨epoch, he⟩, timesRevoked_nil]
    refine Eq.trans ?_ (UInt64.add_zero _).symm
    cases e with
    | revokedAttribute b epoch =>
      have hne : a ≠ b := fun hb => h ⟨epoch, hb ▸ rfl⟩
      exact RevocationList.currentEpoch_bumped_ne hne rl
    | revokedUser u => exact rl.currentEpoch_withUser u a
    | reopened => rfl

/-! ## Runs -/

theorem Run.agrees (hD : D.ReadsShallow) {s s' : RevocationList × Disk} {es : List Success}
    (h : Run D s es s') (hs : Agrees D s) : Agrees D s' := by
  induction h with
  | nil => exact hs
  | cons hstep _ ih => exact ih (hstep.spec hD hs).1

/-- **An epoch counts the revocations** of its attribute, in the arithmetic that wraps. -/
theorem Run.currentEpoch_eq (hD : D.ReadsShallow) {s s' : RevocationList × Disk} {es : List Success}
    (h : Run D s es s') (hs : Agrees D s) (a : String) :
    s'.1.currentEpoch a = s.1.currentEpoch a + UInt64.ofNat (timesRevoked a es) := by
  induction h with
  | nil => exact (UInt64.add_zero _).symm
  | @cons s s₁ s' e es hstep _ ih =>
    obtain ⟨hagrees, hnext, -⟩ := hstep.spec hD hs
    rw [ih hagrees, hnext, e.currentEpoch_next, UInt64.add_assoc, ← UInt64.ofNat_add,
      ← timesRevoked_append, List.singleton_append]

/-- What the next revocation of an attribute returns. -/
theorem Run.epoch_eq (hD : D.ReadsShallow) {s s₁ s₂ : RevocationList × Disk} {es : List Success}
    {a : String} {epoch : UInt64} (h : Run D s es s₁) (hs : Agrees D s)
    (hstep : Step D s₁ (.revokedAttribute a epoch) s₂) : epoch = s₁.1.currentEpoch a + 1 :=
  (hstep.spec hD (h.agrees hD hs)).2.2 a epoch rfl

/-- The epochs of a run are numbers that are counted up, as long as the counter stays in its range. -/
theorem Run.toNat_currentEpoch (hD : D.ReadsShallow) {s s' : RevocationList × Disk} {es : List Success}
    (h : Run D s es s') (hs : Agrees D s) {a : String}
    (hlt : (s.1.currentEpoch a).toNat + timesRevoked a es < 2 ^ 64) :
    (s'.1.currentEpoch a).toNat = (s.1.currentEpoch a).toNat + timesRevoked a es := by
  rw [h.currentEpoch_eq hD hs, toNat_add_ofNat hlt]

/-- **No revocation wraps** if each of them returns a larger epoch than the one before it. -/
theorem Run.timesRevoked_lt (hD : D.ReadsShallow) {s s' : RevocationList × Disk} {es : List Success}
    (hrun : Run D s es s') (hs : Agrees D s) {a : String}
    (h : ∀ es₁ epoch es₂ s₁, es = es₁ ++ .revokedAttribute a epoch :: es₂ → Run D s es₁ s₁ →
      s₁.1.currentEpoch a < epoch) :
    (s.1.currentEpoch a).toNat + timesRevoked a es < 2 ^ 64 := by
  induction es using List.reverseRecOn generalizing s' with
  | nil => exact UInt64.toNat_lt _
  | append_singleton es e ih =>
    obtain ⟨s₁, hbefore, hlast⟩ := run_append.1 hrun
    obtain - | ⟨hstep, -⟩ := hlast
    have hlt := ih hbefore fun es₁ epoch es₂ s₂ hes => h es₁ epoch (es₂ ++ [e]) s₂ (by simp [hes])
    by_cases he : ∃ epoch, e = .revokedAttribute a epoch
    · obtain ⟨epoch, rfl⟩ := he
      have hrise := h es epoch [] s₁ rfl hbefore
      rw [hbefore.epoch_eq hD hs hstep, lt_add_one_iff, hbefore.toNat_currentEpoch hD hs hlt] at hrise
      simpa [← Nat.add_assoc] using hrise
    · rw [timesRevoked_append, timesRevoked_cons_of_ne fun epoch hrevoked => he ⟨epoch, hrevoked⟩]
      exact hlt

/-- Below the top of the range, the epochs of an attribute retire. -/
theorem Run.retires (hD : D.ReadsShallow) {s s' : RevocationList × Disk} {es : List Success}
    (hrun : Run D s es s') (hs : Agrees D s) {a : String}
    (hlt : (s.1.currentEpoch a).toNat + timesRevoked a es < 2 ^ 64) : Retires D s es a where
  retired := by
    rintro es₁ epoch es₂ es₃ s₁ s₂ rfl h₁ h₂ htag
    simp only [timesRevoked_append, timesRevoked_cons_self] at hlt
    have hbefore := h₁.toNat_currentEpoch hD hs (a := a) (by omega)
    have hafter := h₂.toNat_currentEpoch hD hs (a := a)
      (by simp only [timesRevoked_append, timesRevoked_cons_self]; omega)
    rw [(tag_eq_tag.1 htag).2, hbefore, timesRevoked_append, timesRevoked_cons_self] at hafter
    omega
  above := by
    rintro es₁ es₂ epoch es₃ s₁ rfl h₁
    simp only [timesRevoked_append, timesRevoked_cons_self] at hlt
    rw [← List.append_assoc] at hrun
    obtain ⟨s₂, h₂, hrest⟩ := run_append.1 hrun
    obtain - | ⟨hstep, -⟩ := hrest
    have hbefore := h₁.toNat_currentEpoch hD hs (a := a) (by omega)
    have hlast := h₂.toNat_currentEpoch hD hs (a := a) (by rw [timesRevoked_append]; omega)
    rw [timesRevoked_append] at hlast
    rw [h₂.epoch_eq hD hs hstep]
    have hle : s₁.1.currentEpoch a ≤ s₂.1.currentEpoch a := by
      rw [UInt64.le_iff_toNat_le]
      omega
    exact UInt64.lt_of_le_of_lt hle (lt_add_one_iff.2 (by omega))
  others := by
    intro es₁ epoch es₂ s₁ s₂ _ h₁ hstep b hb
    rw [tag_eq_tag, (hstep.spec hD (h₁.agrees hD hs)).2.1]
    exact ⟨rfl, RevocationList.currentEpoch_bumped_ne hb _⟩

/-- **When a retired epoch never comes back.** In a run of successful calls on a list that was opened from
a file, the epochs of an attribute retire for good, each revocation returns one above all before and leaves
the other attributes alone, exactly if the epoch on file and the revocations of the run together stay below
`2 ^ 64`. -/
theorem retires_iff (hD : D.ReadsShallow) {path : Path} {d : Disk} {rl : RevocationList}
    (hopen : (Fs.exec (RevocationList.open D path) d).1 = .ok rl) {es : List Success}
    {s' : RevocationList × Disk} (hrun : Run D (rl, d) es s') (a : String) :
    Retires D (rl, d) es a ↔ (rl.currentEpoch a).toNat + timesRevoked a es < 2 ^ 64 := by
  have hs := agrees_of_open hopen
  constructor
  · intro h
    exact hrun.timesRevoked_lt hD hs fun es₁ epoch es₂ s₁ => h.above es₁ [] epoch es₂ s₁
  · exact hrun.retires hD hs

/-- Two revocations of an attribute, with a reopening between them. -/
def exampleSuccesses : List Success :=
  [.revokedAttribute "clearance>=4" 1, .reopened, .revokedAttribute "clearance>=4" 2]

theorem retires_exampleSuccesses :
    Retires serdeJson (exampleList, ⟨∅, []⟩) exampleSuccesses "clearance>=4" := by
  have hD := readsBackShallow_serdeJson.shallow
  have hreopen := (agrees_write hD (exampleList.bumped "clearance>=4") ⟨∅, []⟩).exec_open
  have hrun : Run serdeJson (exampleList, ⟨∅, []⟩) exampleSuccesses _ :=
    .cons (@Step.revokeAttribute serdeJson _ _ _ _ _ _ none rfl) (.cons (.reopen hreopen)
      (.cons (@Step.revokeAttribute serdeJson _ _ _ _ _ _ none rfl) .nil))
  exact (retires_iff hD open_exampleList hrun "clearance>=4").2 (by decide)

/-- A list with the largest epoch that a file can hold. -/
def exampleTop : RevocationList :=
  ⟨⟨["revocation.json"]⟩, ⟨HashMap.collect [("clearance>=4", 18446744073709551615)], []⟩⟩

/-- The file of the list. -/
def exampleTopFile : Disk :=
  Disk.write ⟨∅, []⟩ exampleTop.path (RevocationList.encode serdeJson exampleTop.state)

/-- **A wrap** leads from the largest epoch to the first one, whose tag the oldest keys have. -/
theorem not_retires_exampleTop :
    (Fs.exec (RevocationList.open serdeJson exampleTop.path) exampleTopFile).1 = .ok exampleTop ∧
      ∃ s', Run serdeJson (exampleTop, exampleTopFile) [.revokedAttribute "clearance>=4" 0] s' ∧
        s'.1.tag "clearance>=4" = "clearance>=4@epoch0" ∧
        ¬ Retires serdeJson (exampleTop, exampleTopFile) [.revokedAttribute "clearance>=4" 0]
          "clearance>=4" := by
  refine ⟨agrees_write readsBackShallow_serdeJson.shallow exampleTop ⟨∅, []⟩, _,
    .cons (@Step.revokeAttribute serdeJson _ _ _ _ _ _ none rfl) .nil, by decide, fun h => ?_⟩
  have habove := h.above [] [] 0 [] _ rfl .nil
  revert habove
  decide

end SecureABE.Revocation
