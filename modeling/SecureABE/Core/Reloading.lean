import SecureABE.Core.Codec
import SecureABE.Core.Ideal
import SecureABE.Core.Operations

/-!
# Saving and reloading

A setup bundle stores the master secret and the commitments. The generators, `h` and `egg_alpha` are
computed again when it is loaded, so a reload gives back parameters only that belong to their master
secret (`Belongs`). Setup makes such parameters, and registrations and reloads keep to them
(`Held.belongs`), and therefore `reload_held`: in every state that these operations lead to, saving and
reloading changes nothing.
-/

namespace SecureABE.Core

open Rust

variable {F G₁ G₂ Gₜ : Type} [Field F] [DecidableEq F] [AddCommGroup G₁] [Module F G₁]
  [AddCommGroup G₂] [Module F G₂] [AddCommGroup Gₜ] [Module F Gₜ]
variable {C : Curve F G₁ G₂ Gₜ} {D : Codec}

/-! ## Parameters that belong to a master secret -/

/-- What is not stored of the parameters is what a reload computes from the master secret. -/
def Belongs (C : Curve F G₁ G₂ Gₜ) (pp : PublicParams G₁ G₂ Gₜ) (msk : MasterSecret F) : Prop :=
  pp = { g1 := C.g1, g2 := C.g2, h := msk.beta • C.g1,
         eggAlpha := msk.alpha • C.pairing C.g1 C.g2, attributes := pp.attributes }

section

omit [DecidableEq F]

theorem belongs_setup (rng : Rng F) : Belongs C (setup C rng).1.1 (setup C rng).1.2 := rfl

theorem Belongs.registerAttribute {pp : PublicParams G₁ G₂ Gₜ} {msk : MasterSecret F}
    (h : Belongs C pp msk) (name : String) (rng : Rng F) :
    Belongs C (registerAttribute pp name rng).1 msk := by
  have hext := extends_registerAttribute pp name rng
  have hg1 : pp.g1 = C.g1 := congrArg PublicParams.g1 h
  have hg2 : pp.g2 = C.g2 := congrArg PublicParams.g2 h
  have hh : pp.h = msk.beta • C.g1 := congrArg PublicParams.h h
  have hegg : pp.eggAlpha = msk.alpha • C.pairing C.g1 C.g2 := congrArg PublicParams.eggAlpha h
  exact PublicParams.ext (hext.g1.trans hg1) (hext.g2.trans hg2) (hext.h.trans hh)
    (hext.eggAlpha.trans hegg) rfl

theorem Belongs.registerAll {pp : PublicParams G₁ G₂ Gₜ} {msk : MasterSecret F} (h : Belongs C pp msk)
    (calls : List (String × Rng F)) : Belongs C (registerAll pp calls) msk := by
  induction calls generalizing pp with
  | nil => exact h
  | cons call calls ih => exact ih (h.registerAttribute call.1 call.2)

/-- Whatever text is loaded, the parameters belong to the master secret that comes with them. -/
theorem belongs_of_setupBundleFromJson {s : String} {pp : PublicParams G₁ G₂ Gₜ}
    {msk : MasterSecret F} (h : setupBundleFromJson C D s = .ok (pp, msk)) : Belongs C pp msk := by
  unfold setupBundleFromJson at h
  obtain ⟨dto, -, h⟩ := bind_eq_ok.1 h
  obtain ⟨alpha, -, h⟩ := bind_eq_ok.1 h
  obtain ⟨beta, -, h⟩ := bind_eq_ok.1 h
  obtain ⟨attributes, -, h⟩ := bind_eq_ok.1 h
  obtain ⟨rfl, rfl⟩ := Prod.mk.inj (Except.ok.inj h)
  rfl

end

/-! ## Runs -/

/-- The pairs of parameters and master secret that setup, registrations and reloads lead to. -/
inductive Held (C : Curve F G₁ G₂ Gₜ) (D : Codec) : PublicParams G₁ G₂ Gₜ → MasterSecret F → Prop
  | setup (rng : Rng F) : Held C D (setup C rng).1.1 (setup C rng).1.2
  | register {pp : PublicParams G₁ G₂ Gₜ} {msk : MasterSecret F} (name : String) (rng : Rng F) :
    Held C D pp msk → Held C D (registerAttribute pp name rng).1 msk
  | reload {pp pp' : PublicParams G₁ G₂ Gₜ} {msk msk' : MasterSecret F} : Held C D pp msk →
    setupBundleFromJson C D (setupBundleToJson C D pp msk) = .ok (pp', msk') → Held C D pp' msk'

omit [DecidableEq F] in
theorem Held.belongs {pp : PublicParams G₁ G₂ Gₜ} {msk : MasterSecret F} (h : Held C D pp msk) :
    Belongs C pp msk := by
  induction h with
  | setup rng => exact belongs_setup rng
  | register name rng _ ih => exact ih.registerAttribute name rng
  | reload _ hload _ => exact belongs_of_setupBundleFromJson hload

omit [DecidableEq F] in
/-- **Saving and reloading secrets changes nothing**: not the parameters and the master secret of any
run, and no user key. -/
theorem reload_held (hC : C.ReadsBack) (hX : D.HexReadsBack) (hD : D.ReadsShallow) :
    (∀ (pp : PublicParams G₁ G₂ Gₜ) (msk : MasterSecret F), Held C D pp msk →
      setupBundleFromJson C D (setupBundleToJson C D pp msk) = .ok (pp, msk)) ∧
    ∀ usk : UserSecretKey G₂, userKeyFromJson C D (userKeyToJson C D usk) = .ok usk := by
  constructor
  · intro pp msk h
    have hdepth := SetupBundleDto.depth_toJson (setupBundleDto C D pp msk)
    exact setupBundleFromJson_toJson hC hX h.belongs (hD _ (by omega))
  · intro usk
    have hdepth := UserSecretKeyDto.depth_toJson (userKeyDto C D usk)
    exact userKeyFromJson_toJson hC hX (hD _ (by omega))

theorem reload_held_exponents :
    (∀ (pp : PublicParams Scalar Scalar Scalar) (msk : MasterSecret Scalar),
      Held exponents serdeJson pp msk →
        setupBundleFromJson exponents serdeJson (setupBundleToJson exponents serdeJson pp msk) =
          .ok (pp, msk)) ∧
    ∀ usk : UserSecretKey Scalar,
      userKeyFromJson exponents serdeJson (userKeyToJson exponents serdeJson usk) = .ok usk :=
  reload_held readsBack_exponents (hexReadsBack_codecWith _) readsBackShallow_serdeJson.shallow

end SecureABE.Core
