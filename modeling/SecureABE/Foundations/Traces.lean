import SecureABE.Foundations.Interleaving
import Mathlib.Logic.Unique
import Mathlib.Order.Fin.Basic

/-!
# Traces

What happens when programs take turns is a list of events, each with the program it is of. It is an
interleaving of the programs if each of them performs its own events and all replies are those of the
handler (`Interleaves`). These are the runs of the schedules (`exists_interleaves_iff`), without the
programs that are left at each step.

* `Prog.Obeys` relates each operation of a program to the events that the program has had before.
* `Isolated`: between the last look of a program at a resource and its write of it, no other program
  writes it. What a program knows by its last look (`Knows`) then still holds when it writes
  (`Knows.holds`).
-/

namespace Rust

variable {Op : Type} {Reply : Op → Type} {S α β ι ρ : Type}

/-! ## Programs after a history -/

namespace Prog

/-- After the events `past`: every operation of the program is related to the events before it, and its
value to all of them. -/
def Obeys (R : List (Event Reply) → Op → Prop) (Q : List (Event Reply) → α → Prop) :
    Prog Reply α → List (Event Reply) → Prop
  | .pure a, past => Q past a
  | .step op next, past => R past op ∧ ∀ r, Obeys R Q (next r) (past ++ [⟨op, r⟩])

variable {R : List (Event Reply) → Op → Prop} {Q : List (Event Reply) → α → Prop}

/-- A sequence, part by part. -/
theorem Obeys.bind {p : Prog Reply α} {f : α → Prog Reply β} {Q' : List (Event Reply) → β → Prop}
    {past : List (Event Reply)} (h : p.Obeys R Q past)
    (hf : ∀ past a, Q past a → (f a).Obeys R Q' past) : (p.bind f).Obeys R Q' past := by
  induction p generalizing past with
  | pure a => exact hf past a h
  | step op next ih => exact ⟨h.1, fun r => ih r (h.2 r)⟩

theorem Obeys.mono {p : Prog Reply α} {Q' : List (Event Reply) → α → Prop} {past : List (Event Reply)}
    (h : p.Obeys R Q past) (hQ : ∀ past a, Q past a → Q' past a) : p.Obeys R Q' past := by
  induction p generalizing past with
  | pure a => exact hQ past a h
  | step op next ih => exact ⟨h.1, fun r => ih r (h.2 r)⟩

/-- What the operations keep of the history, a program keeps, which then may obey more. -/
theorem Obeys.keeps {p : Prog Reply α} {R' : List (Event Reply) → Op → Prop}
    {I : List (Event Reply) → Prop} {past : List (Event Reply)} (h : p.Obeys R Q past)
    (hR : ∀ past op, I past → R past op → R' past op)
    (hI : ∀ past op r, I past → R past op → I (past ++ [⟨op, r⟩])) (hp : I past) :
    p.Obeys R' (fun past a => I past ∧ Q past a) past := by
  induction p generalizing past with
  | pure a => exact ⟨hp, h⟩
  | step op next ih => exact ⟨hR past op hp h.1, fun r => ih r (h.2 r) (hI past op r hp h.1)⟩

/-- **What a program obeys** is so of the events that it performs. -/
theorem Obeys.of_performs {p : Prog Reply α} {past es : List (Event Reply)} {a : α}
    (h : p.Obeys R Q past) (hp : Performs p es a) :
    (∀ es₁ e es₂, es = es₁ ++ e :: es₂ → R (past ++ es₁) e.op) ∧ Q (past ++ es) a := by
  induction hp generalizing past with
  | pure a => exact ⟨fun es₁ e es₂ hes => by simp at hes, by rwa [List.append_nil]⟩
  | @step op next r es a hp ih =>
    obtain ⟨hop, hnext⟩ := h
    obtain ⟨hes, hend⟩ := ih (hnext r)
    rw [List.append_assoc, List.singleton_append] at hend
    refine ⟨fun es₁ e es₂ heq => ?_, hend⟩
    rcases List.cons_eq_append_iff.1 heq with ⟨rfl, heq⟩ | ⟨es₁', rfl, rfl⟩
    · obtain ⟨rfl, rfl⟩ := List.cons.inj heq
      rwa [List.append_nil]
    · have hop' := hes es₁' e es₂ rfl
      rwa [List.append_assoc, List.singleton_append] at hop'

/-- The events of a program and its value are determined by what comes first in a list. -/
theorem Performs.unique {p : Prog Reply α} {es es' fs fs' : List (Event Reply)} {a a' : α}
    (h : Performs p es a) (h' : Performs p es' a') (heq : es ++ fs = es' ++ fs') :
    es = es' ∧ a = a' ∧ fs = fs' := by
  induction h generalizing es' with
  | pure a =>
    obtain ⟨rfl, rfl⟩ := performs_pure.1 h'
    exact ⟨rfl, rfl, heq⟩
  | step h ih =>
    obtain ⟨r', es', rfl, hnext⟩ := performs_step.1 h'
    obtain ⟨hevent, htail⟩ := List.cons.inj heq
    obtain rfl := eq_of_heq (Event.mk.inj hevent).2
    obtain ⟨rfl, rfl, rfl⟩ := ih hnext htail
    exact ⟨rfl, rfl, rfl⟩

end Prog

/-! ## Interleavings -/

section

variable [DecidableEq ι]

/-- The events of one of the programs. -/
def own (i : ι) (tr : List (ι × Event Reply)) : List (Event Reply) :=
  (tr.filter fun x => x.1 = i).map Prod.snd

@[simp] theorem own_nil (i : ι) : own i ([] : List (ι × Event Reply)) = [] := rfl

theorem own_append (i : ι) (tr tr' : List (ι × Event Reply)) :
    own i (tr ++ tr') = own i tr ++ own i tr' := by
  rw [own, List.filter_append, List.map_append, own, own]

theorem own_cons_self (i : ι) (e : Event Reply) (tr : List (ι × Event Reply)) :
    own i ((i, e) :: tr) = e :: own i tr := by
  rw [own, List.filter_cons_of_pos (by simp), List.map_cons, own]

theorem own_cons_ne {i j : ι} (h : j ≠ i) (e : Event Reply) (tr : List (ι × Event Reply)) :
    own i ((j, e) :: tr) = own i tr := by
  rw [own, List.filter_cons_of_neg (by simpa using h), own]

theorem mem_own {i : ι} {e : Event Reply} {tr : List (ι × Event Reply)} :
    e ∈ own i tr ↔ (i, e) ∈ tr := by
  simp [own]

/-- An event of a program is at a place of the trace. -/
theorem exists_of_own_eq {i : ι} {tr : List (ι × Event Reply)} {es es' : List (Event Reply)}
    {e : Event Reply} (h : own i tr = es ++ e :: es') :
    ∃ t t', tr = t ++ (i, e) :: t' ∧ own i t = es ∧ own i t' = es' := by
  induction tr generalizing es with
  | nil => simp [own] at h
  | cons x tr ih =>
    obtain ⟨j, f⟩ := x
    by_cases hj : j = i
    · subst hj
      rw [own_cons_self] at h
      rcases List.cons_eq_append_iff.1 h with ⟨rfl, heq⟩ | ⟨es, rfl, heq⟩
      · obtain ⟨rfl, rfl⟩ := List.cons.inj heq
        exact ⟨[], tr, rfl, rfl, rfl⟩
      · obtain ⟨t, t', rfl, rfl, rfl⟩ := ih heq
        exact ⟨(j, f) :: t, t', rfl, own_cons_self .., rfl⟩
    · rw [own_cons_ne hj] at h
      obtain ⟨t, t', rfl, rfl, rfl⟩ := ih h
      exact ⟨(j, f) :: t, t', rfl, own_cons_ne hj .., rfl⟩

/-- The trace is an interleaving of the programs from a state to another, with their values. -/
structure Interleaves (handle : (op : Op) → S → Reply op × S) (ps : ι → Prog Reply α) (s : S)
    (tr : List (ι × Event Reply)) (ends : ι → α) (s' : S) : Prop where
  performs : ∀ i, (ps i).Performs (own i tr) (ends i)
  explains : Explains handle s (tr.map Prod.snd) s'

theorem own_map_mk (i : ι) (es : List (Event Reply)) : own i (es.map (Prod.mk i)) = es := by
  induction es with
  | nil => rfl
  | cons e es ih => rw [List.map_cons, own_cons_self, ih]

theorem own_map_mk_ne {i j : ι} (h : j ≠ i) (es : List (Event Reply)) : own i (es.map (Prod.mk j)) = [] := by
  induction es with
  | nil => rfl
  | cons e es ih => rw [List.map_cons, own_cons_ne h, ih]

/-- A program alone. -/
theorem exists_interleaves_of_run [Unique ι] {handle : (op : Op) → S → Reply op × S} {p : Prog Reply α}
    {s s' : S} {a : α} (h : p.run handle s = (a, s')) :
    ∃ es : List (Event Reply),
      Interleaves handle (fun _ : ι => p) s (es.map (Prod.mk default)) (fun _ => a) s' := by
  obtain ⟨es, hperforms, hexplains⟩ := Prog.run_eq_iff.1 h
  refine ⟨es, fun i => ?_, ?_⟩
  · rwa [Unique.eq_default i, own_map_mk]
  · simpa [Function.comp_def] using hexplains

/-- Two programs one after the other. -/
theorem exists_interleaves_of_run_run {handle : (op : Op) → S → Reply op × S} {ps : Fin 2 → Prog Reply α}
    {s s' s'' : S} {ends : Fin 2 → α} (h₀ : (ps 0).run handle s = (ends 0, s'))
    (h₁ : (ps 1).run handle s' = (ends 1, s'')) : ∃ es es' : List (Event Reply),
      Interleaves handle ps s (es.map (Prod.mk 0) ++ es'.map (Prod.mk 1)) ends s'' := by
  obtain ⟨es, hperforms, hexplains⟩ := Prog.run_eq_iff.1 h₀
  obtain ⟨es', hperforms', hexplains'⟩ := Prog.run_eq_iff.1 h₁
  refine ⟨es, es', Fin.forall_fin_two.2 ⟨?_, ?_⟩, ?_⟩
  · rwa [own_append, own_map_mk, own_map_mk_ne (by decide), List.append_nil]
  · rwa [own_append, own_map_mk, own_map_mk_ne (by decide), List.nil_append]
  · rw [List.map_append, explains_append]
    exact ⟨s', by simpa [Function.comp_def] using hexplains, by simpa [Function.comp_def] using hexplains'⟩

/-- **The traces are the runs of the schedules** in which all programs end. -/
theorem exists_interleaves_iff {handle : (op : Op) → S → Reply op × S} {ps : ι → Prog Reply α}
    {s s' : S} {ends : ι → α} :
    (∃ tr, Interleaves handle ps s tr ends s') ↔
      ∃ sched, Prog.interleave handle sched ps s = (fun i => .pure (ends i), s') := by
  constructor
  · rintro ⟨tr, hperforms, hexplains⟩
    induction tr generalizing ps s with
    | nil =>
      refine ⟨[], Prod.ext (funext fun i => ?_) hexplains.symm⟩
      cases hps : ps i with
      | pure a =>
        have h := hperforms i
        rw [hps] at h
        obtain ⟨-, hend⟩ := Prog.performs_pure.1 h
        change ps i = .pure (ends i)
        rw [hps, hend]
      | step op next =>
        have h := hperforms i
        rw [hps] at h
        obtain ⟨r, es, hes, -⟩ := Prog.performs_step.1 h
        cases hes
    | cons x tr ih =>
      obtain ⟨i, ⟨op, r⟩⟩ := x
      obtain ⟨hreply, hexplains⟩ := hexplains
      have hi := hperforms i
      rw [own_cons_self] at hi
      cases hps : ps i with
      | pure a =>
        rw [hps] at hi
        cases (Prog.performs_pure.1 hi).1
      | step op' next =>
        rw [hps] at hi
        obtain ⟨r', es, hes, hnext⟩ := Prog.performs_step.1 hi
        obtain ⟨hevent, rfl⟩ := List.cons.inj hes
        cases hevent
        have hrest : ∀ j, (Function.update ps i (next r) j).Performs (own j tr) (ends j) := by
          intro j
          by_cases hj : j = i
          · subst hj
            rwa [Function.update_self]
          · rw [Function.update_of_ne hj, ← own_cons_ne (Ne.symm hj) ⟨op, r⟩ tr]
            exact hperforms j
        obtain ⟨sched, hsched⟩ := ih hrest hexplains
        refine ⟨i :: sched, ?_⟩
        rw [Prog.interleave, hps]
        change Prog.interleave handle sched (Function.update ps i (next (handle op s).1)) (handle op s).2 = _
        rw [show (handle op s).1 = r from hreply]
        exact hsched
  · rintro ⟨sched, hsched⟩
    induction sched generalizing ps s with
    | nil =>
      obtain ⟨rfl, rfl⟩ := Prod.mk.inj hsched
      exact ⟨[], fun i => .pure _, rfl⟩
    | cons i sched ih =>
      obtain ⟨tr, hperforms, hexplains⟩ := ih hsched
      cases hps : ps i with
      | pure a =>
        rw [hps] at hperforms hexplains
        have hupdate : Function.update ps i (.pure a) = ps := by rw [← hps, Function.update_eq_self]
        refine ⟨tr, fun j => ?_, hexplains⟩
        rw [← hupdate]
        exact hperforms j
      | step op next =>
        rw [hps] at hperforms hexplains
        refine ⟨(i, ⟨op, (handle op s).1⟩) :: tr, fun j => ?_, rfl, hexplains⟩
        have hj' := hperforms j
        by_cases hj : j = i
        · subst hj
          rw [own_cons_self, hps]
          exact .step (by rwa [Prog.turn, Function.update_self] at hj')
        · rw [own_cons_ne (Ne.symm hj)]
          rwa [Function.update_of_ne hj] at hj'

end

/-- One event more. -/
theorem Explains.concat {handle : (op : Op) → S → Reply op × S} {s s' : S} {t : List (ι × Event Reply)}
    {i : ι} {e : Event Reply} (h : Explains handle s (t.map Prod.snd) s') (he : (handle e.op s').1 = e.reply) :
    Explains handle s ((t ++ [(i, e)]).map Prod.snd) (handle e.op s').2 := by
  rw [List.map_append, explains_append]
  exact ⟨s', h, he, rfl⟩

/-- **Along a trace**: what every event of it preserves goes from one place of it to a later one. -/
theorem Explains.along {handle : (op : Op) → S → Reply op × S} {s₀ s s' : S}
    (t t' t'' : List (ι × Event Reply)) (P : List (ι × Event Reply) → S → Prop)
    (hstep : ∀ u i e u' s, t ++ (t' ++ t'') = u ++ (i, e) :: u' → Explains handle s₀ (u.map Prod.snd) s →
      (handle e.op s).1 = e.reply → P u s → P (u ++ [(i, e)]) (handle e.op s).2)
    (ht : Explains handle s₀ (t.map Prod.snd) s) (ht' : Explains handle s (t'.map Prod.snd) s')
    (hP : P t s) : P (t ++ t') s' := by
  induction t' generalizing t s with
  | nil =>
    rw [List.append_nil]
    exact ht' ▸ hP
  | cons x t' ih =>
    obtain ⟨i, e⟩ := x
    obtain ⟨hreply, ht'⟩ := ht'
    have h := ih (t ++ [(i, e)]) (by simpa using hstep) (ht.concat hreply) ht'
      (hstep t i e (t' ++ t'') s (by simp) ht hreply hP)
    simpa using h

/-! ## Looks and writes -/

/-- What the events keep, the way from a state to another keeps. -/
theorem Explains.keeps {handle : (op : Op) → S → Reply op × S} {φ : S → Prop} {s s' : S}
    {es : List (Event Reply)} (h : Explains handle s es s')
    (hes : ∀ e ∈ es, ∀ s, φ s → φ (handle e.op s).2) (hs : φ s) : φ s' := by
  induction es generalizing s with
  | nil => exact h ▸ hs
  | cons e es ih =>
    exact ih h.2 (fun e' he' => hes e' (List.mem_cons_of_mem _ he')) (hes e List.mem_cons_self s hs)

section

variable (Looks Writes : Op → ρ → Prop) (r : ρ)

/-- **No write is lost**: between the last look of a program at a resource and its write of it, no other
program writes it. -/
def Isolated (tr : List (ι × Event Reply)) : Prop :=
  ∀ t i e t' e' t'', tr = t ++ (i, e) :: (t' ++ (i, e') :: t'') → Looks e.op r → Writes e'.op r →
    (∀ x ∈ t', x.1 = i → ¬ Looks x.2.op r) → ∀ x ∈ t', Writes x.2.op r → x.1 = i

/-- The last access of a program to a resource is a look, with a reply that shows a fact. -/
def Knows (handle : (op : Op) → S → Reply op × S) (φ : S → Prop) (past : List (Event Reply)) : Prop :=
  ∃ es e es', past = es ++ e :: es' ∧ Looks e.op r ∧ (∀ s, (handle e.op s).1 = e.reply → φ s) ∧
    ∀ e' ∈ es', ¬ Looks e'.op r ∧ ¬ Writes e'.op r

variable {Looks Writes r}

/-- Programs one after another are isolated. -/
theorem isolated_of_pairwise [PartialOrder ι] {tr : List (ι × Event Reply)}
    (h : tr.Pairwise fun x y => x.1 ≤ y.1) : Isolated Looks Writes r tr := by
  rintro t i e t' e' t'' rfl - - - x hx -
  obtain ⟨-, h, -⟩ := List.pairwise_append.1 h
  obtain ⟨hfirst, h⟩ := List.pairwise_cons.1 h
  obtain ⟨-, -, hlast⟩ := List.pairwise_append.1 h
  exact le_antisymm (hlast x hx _ List.mem_cons_self) (hfirst x (List.mem_append_left _ hx))

theorem Knows.mono {handle : (op : Op) → S → Reply op × S} {φ ψ : S → Prop} {past : List (Event Reply)}
    (h : Knows Looks Writes r handle φ past) (hφ : ∀ s, φ s → ψ s) :
    Knows Looks Writes r handle ψ past := by
  obtain ⟨es, e, es', rfl, hlook, hs, hes'⟩ := h
  exact ⟨es, e, es', rfl, hlook, fun s hreply => hφ s (hs s hreply), hes'⟩

/-- A look just now. -/
theorem knows_concat {handle : (op : Op) → S → Reply op × S} {φ : S → Prop} (past : List (Event Reply))
    {e : Event Reply} (hlook : Looks e.op r) (hφ : ∀ s, (handle e.op s).1 = e.reply → φ s) :
    Knows Looks Writes r handle φ (past ++ [e]) :=
  ⟨past, e, [], rfl, hlook, hφ, fun _ he => (by cases he)⟩

theorem Knows.concat {handle : (op : Op) → S → Reply op × S} {φ : S → Prop}
    {past : List (Event Reply)} (h : Knows Looks Writes r handle φ past) {e : Event Reply}
    (hlooks : ¬ Looks e.op r) (hwrites : ¬ Writes e.op r) :
    Knows Looks Writes r handle φ (past ++ [e]) := by
  obtain ⟨es, e', es', rfl, hlook, hφ, hes'⟩ := h
  refine ⟨es, e', es' ++ [e], by simp, hlook, hφ, fun e'' he'' => ?_⟩
  rcases List.mem_append.1 he'' with hmem | hmem
  · exact hes' e'' hmem
  · rw [List.mem_singleton.1 hmem]
    exact ⟨hlooks, hwrites⟩

/-- **What a program knows** about a resource holds when the program writes it. -/
theorem Knows.holds [DecidableEq ι] {handle : (op : Op) → S → Reply op × S} {φ : S → Prop} {i : ι}
    {t t' : List (ι × Event Reply)} {e : Event Reply} {s s' : S}
    (h : Knows Looks Writes r handle φ (own i t)) (hiso : Isolated Looks Writes r (t ++ (i, e) :: t'))
    (he : Writes e.op r) (hs : Explains handle s (t.map Prod.snd) s')
    (hlooks : ∀ op, Looks op r → ¬ Writes op r)
    (hframe : ∀ x ∈ t, ¬ Writes x.2.op r → ∀ s, φ s → φ (handle x.2.op s).2) : φ s' := by
  obtain ⟨es, e₀, es', hown, hlook, hφ, hquiet⟩ := h
  obtain ⟨u, u', rfl, -, rfl⟩ := exists_of_own_eq hown
  rw [List.map_append, explains_append] at hs
  obtain ⟨s₀, -, hreply, hs⟩ := hs
  refine hs.keeps (fun e₁ he₁ => ?_) (hframe (i, e₀) (by simp) (hlooks _ hlook) s₀ (hφ s₀ hreply))
  obtain ⟨x, hx, rfl⟩ := List.mem_map.1 he₁
  apply hframe x (by simp [hx])
  intro hwrite
  have hmine : x.1 = i := by
    refine hiso u i e₀ u' e t' (by simp) hlook he (fun y hy hyi => ?_) x hx hwrite
    exact (hquiet y.2 (mem_own.2 (by rw [← hyi]; exact hy))).1
  exact (hquiet x.2 (mem_own.2 (by rw [← hmine]; exact hx))).2 hwrite

end

/-! ## Fallible programs -/

namespace Cmd

variable {ε ε' : Type} {R : List (Event Reply) → Op → Prop} {Q : List (Event Reply) → α → Prop}
  {past : List (Event Reply)}

/-- `Prog.Obeys`, with a relation to the values that are returned. -/
def Obeys (R : List (Event Reply) → Op → Prop) (x : Cmd Reply ε α) (Q : List (Event Reply) → α → Prop)
    (past : List (Event Reply)) : Prop :=
  Prog.Obeys R (fun past o => ∀ a, o = .ok a → Q past a) x past

theorem obeys_ofOutcome {o : Outcome ε α} (h : ∀ a, o = .ok a → Q past a) :
    Obeys R (ofOutcome o : Cmd Reply ε α) Q past := h

theorem obeys_pure {a : α} (h : Q past a) : Obeys R (Pure.pure a : Cmd Reply ε α) Q past :=
  fun _ ha => Except.ok.inj ha ▸ h

theorem obeys_perform {op : Op} {Q : List (Event Reply) → Reply op → Prop} (h : R past op)
    (hQ : ∀ r, Q (past ++ [⟨op, r⟩]) r) : Obeys R (perform op : Cmd Reply ε (Reply op)) Q past :=
  ⟨h, fun r _ ha => Except.ok.inj ha ▸ hQ r⟩

theorem Obeys.bind {x : Cmd Reply ε α} {f : α → Cmd Reply ε β} {Q' : List (Event Reply) → β → Prop}
    (h : Obeys R x Q past) (hf : ∀ past a, Q past a → Obeys R (f a) Q' past) :
    Obeys R (x >>= f) Q' past :=
  Prog.Obeys.bind h fun past o ho => by
    cases o with
    | ok a => exact hf past a (ho a rfl)
    | error e => exact fun b hb => (by cases hb)

theorem Obeys.mono {x : Cmd Reply ε α} {Q' : List (Event Reply) → α → Prop} (h : Obeys R x Q past)
    (hQ : ∀ past a, Q past a → Q' past a) : Obeys R x Q' past :=
  Prog.Obeys.mono h fun past _ ho a ha => hQ past a (ho a ha)

theorem Obeys.mapErr {f : ε → ε'} {x : Cmd Reply ε α} (h : Obeys R x Q past) :
    Obeys R (Cmd.mapErr f x) Q past :=
  Prog.Obeys.bind h fun _ _ ho a ha => ho a (Outcome.mapErr_eq_ok.1 ha)

theorem Obeys.ite {p : Prop} [Decidable p] {x y : Cmd Reply ε α} (hx : p → Obeys R x Q past)
    (hy : ¬ p → Obeys R y Q past) : Obeys R (if p then x else y) Q past := by
  split_ifs with h
  · exact hx h
  · exact hy h

/-- What a sequence performs that succeeds. -/
theorem performs_bind_ok {x : Cmd Reply ε α} {f : α → Cmd Reply ε β} {b : β} {es : List (Event Reply)} :
    Prog.Performs (x >>= f : Cmd Reply ε β) es (.ok b) ↔ ∃ es₁ a es₂, es = es₁ ++ es₂ ∧
      Prog.Performs x es₁ (.ok a) ∧ Prog.Performs (f a) es₂ (.ok b) := by
  refine Prog.performs_bind.trans ⟨?_, ?_⟩
  · rintro ⟨es₁, o, es₂, rfl, h, h'⟩
    cases o with
    | ok a => exact ⟨es₁, a, es₂, rfl, h, h'⟩
    | error e => cases (Prog.performs_pure.1 h').2
  · rintro ⟨es₁, a, es₂, rfl, h, h'⟩
    exact ⟨es₁, .ok a, es₂, rfl, h, h'⟩

end Cmd

end Rust
