import Smtrat.Curry.Stores
import Smtrat.Logic.Polarity

/-!
# The meaning of transformed formulas

An interpretation of a received formula gives the names values under which all definitions hold, so
the transformed formula has the same value.  In the other direction a model may violate definitions:
the transformed formula is the weaker one where equalities with applications occur negatively.
-/

namespace Smtrat.Curry

open PropFormula Stores List

universe u

variable {Var F S : Type u} {sig : Signature Var F S} {s t : Stores Var F}
  {pool : FormulaPool CurryEquality}

/-- What the first visit replaces an equality by. -/
def CurriedAtom (sig : Signature Var F S) (s : Stores Var F) (e : UEquality Var F)
    (g : Formula CurryEquality) : Prop :=
  e.WellFormed sig ∧ ∃ c, g = .atom c ∧ s.CurriedEquality e c

/-- What the second visit replaces an equality by. -/
def FlatAtom (pool : FormulaPool CurryEquality) (s : Stores Var F) (c : CurryEquality)
    (h : Formula CurryEquality) : Prop :=
  ∃ eqs, h = pool.create .and (eqs.map .atom) ∧ s.FlatEquality c eqs

theorem growing_curriedAtom : Formula.Growing Extends (CurriedAtom (S := S) sig) where
  refl := Extends.refl
  trans := Extends.trans
  mono := fun hst ⟨hwf, c, hg, hc⟩ => ⟨hwf, c, hg, hc.mono hst⟩

theorem growing_flatAtom : Formula.Growing Extends (FlatAtom pool : Stores Var F → _) where
  refl := Extends.refl
  trans := Extends.trans
  mono := fun hst ⟨eqs, hh, hc⟩ => ⟨eqs, hh, hc.mono hst⟩

/-- A formula and what `addCore` makes of it. -/
def Transformed (sig : Signature Var F S) (pool : FormulaPool CurryEquality) (s : Stores Var F)
    (f : Formula (UEquality Var F)) (h : Formula CurryEquality) : Prop :=
  ∃ g, Formula.Rebuilt (CurriedAtom sig s) f g ∧ Formula.Rebuilt (FlatAtom pool s) g h

variable {f : Formula (UEquality Var F)} {h : Formula CurryEquality}

theorem Transformed.mono
    (hst : Extends s t) (hf : Transformed sig pool s f h) : Transformed sig pool t f h := by
  obtain ⟨g, hfst, hsnd⟩ := hf
  exact ⟨g, hfst.mono fun _ _ => growing_curriedAtom.mono hst,
    hsnd.mono fun _ _ => growing_flatAtom.mono hst⟩

theorem transform_spec [DecidableEq Var] [DecidableEq F] (pool : FormulaPool CurryEquality)
    (hs : Inv sig s) (hf : ∀ e, f.Mentions e → e.WellFormed sig) :
    Inv sig (CurryModule.transform pool f s).2 ∧ Extends s (CurryModule.transform pool f s).2 ∧
      Transformed sig pool (CurryModule.transform pool f s).2 f
        (CurryModule.transform pool f s).1 := by
  obtain ⟨hinv₁, hext₁, hfst⟩ := Formula.visitAtoms_spec (P := UEquality.WellFormed sig)
    pool (fun e s => (.atom (s.curry e).1, (s.curry e).2)) (Inv sig) growing_curriedAtom
    (fun e s he hs => by
      obtain ⟨hinv, hext, hcurried⟩ := curry_spec e hs
      exact ⟨hinv, hext, he, _, rfl, hcurried⟩) hf hs
  generalize hg : f.visitAtoms pool (fun e s => (Formula.atom (s.curry e).1, (s.curry e).2)) s = r
    at hinv₁ hext₁ hfst
  obtain ⟨g, s₁⟩ := r
  have hbelow : ∀ c, g.Mentions c → c.lhs.Below s₁.nextVariable ∧ c.rhs.Below s₁.nextVariable := by
    intro c hc
    obtain ⟨e, k, ⟨-, c', rfl, hcurried⟩, hment⟩ := hfst.mentions c hc
    obtain rfl := (Formula.mentions_atom c c').mp hment
    exact ⟨hinv₁.curried_below hcurried.1, hinv₁.curried_below hcurried.2.1⟩
  obtain ⟨⟨hinv₂, -⟩, hext₂, hsnd⟩ := Formula.visitAtoms_spec
    (P := fun c => c.lhs.Below s₁.nextVariable ∧ c.rhs.Below s₁.nextVariable)
    pool (fun e s => (pool.create .and ((s.flatten e).1.map .atom), (s.flatten e).2))
    (fun s => Inv sig s ∧ s₁.nextVariable ≤ s.nextVariable) growing_flatAtom
    (fun c s hc hs => by
      obtain ⟨hinv, hext, hle, hflat⟩ :=
        flatten_spec c hs.1 (hc.1.mono hs.2) (hc.2.mono hs.2)
      exact ⟨⟨hinv, Nat.le_trans hs.2 hle⟩, hext, _, rfl, hflat⟩)
    hbelow ⟨hinv₁, Nat.le_refl _⟩
  have htransform : CurryModule.transform pool f s = g.visitAtoms pool
      (fun e s => (pool.create .and ((s.flatten e).1.map .atom), (s.flatten e).2)) s₁ := by
    show (Formula.visitAtoms pool _ (Formula.visitAtoms pool (fun e s =>
      (Formula.atom (s.curry e).1, (s.curry e).2)) f s).1 (Formula.visitAtoms pool (fun e s =>
        (Formula.atom (s.curry e).1, (s.curry e).2)) f s).2) = _
    rw [hg]
  rw [htransform]
  exact ⟨hinv₂, hext₁.trans hext₂, g, hfst.mono fun _ _ => growing_curriedAtom.mono hext₂, hsnd⟩

/-! ## From interpretations to names -/

variable {c : CurryEquality} {e : UEquality Var F} {β : CurryEquality → Bool}
  {eqs : List CurryEquality} {α : UEquality Var F → Bool}

section Interpretation

variable {I : Interpretation sig} {value : ℕ → CurryValue I}

theorem CurriedEquality.holds_iff (hrealizes : Realizes I value s) (hwf : e.WellFormed sig)
    (hc : s.CurriedEquality e c) :
    (curryModel I value).Holds c ↔ I.Holds e := by
  obtain ⟨hlhs, hrhs, hneg⟩ := hc
  rw [CurryModel.Holds, Interpretation.Holds, hneg, hlhs.eval hrealizes hwf.1,
    hrhs.eval hrealizes hwf.2.1]
  have hinl : ∀ v w : I.Value, (Sum.inl v : CurryValue I) = Sum.inl w ↔ v = w :=
    fun v w => ⟨Sum.inl.inj, congrArg Sum.inl⟩
  split_ifs
  · exact not_congr (hinl _ _)
  · exact hinl _ _

theorem FlatEquality.holds_iff (hrealizes : Realizes I value s) (hc : s.FlatEquality c eqs) :
    (∀ d ∈ eqs, (curryModel I value).Holds d) ↔ (curryModel I value).Holds c := by
  obtain ⟨nl, dl, nr, dr, hl, hr, rfl⟩ := hc
  obtain ⟨hvaluel, hdefsl⟩ := hl.eval hrealizes
  obtain ⟨hvaluer, hdefsr⟩ := hr.eval hrealizes
  have hlast : (curryModel I value).Holds ⟨.var nl, .var nr, c.negated⟩ ↔
      (curryModel I value).Holds c := by
    rw [CurryModel.Holds, CurryModel.Holds, ← hvaluel, ← hvaluer]
    rfl
  rw [← hlast]
  constructor
  · exact fun hall => hall _ (mem_append_right _ (mem_singleton_self _))
  · intro hholds d hd
    rcases mem_append.mp hd with hd | hd
    · exact (mem_append.mp hd).elim (hdefsl d) (hdefsr d)
    · exact mem_singleton.mp hd ▸ hholds

theorem eval_create_and (pool : FormulaPool CurryEquality) (β : CurryEquality → Bool)
    (eqs : List CurryEquality) :
    (pool.create .and (eqs.map .atom)).eval β = true ↔ ∀ d ∈ eqs, β d = true := by
  rw [FormulaPool.eval_create, Connective.eval_and, all_eq_true]
  simp

/-- Under an interpretation and the values it gives to the names, the transformed formula has the
value of the formula. -/
theorem Transformed.eval_eq (hrealizes : Realizes I value s) (hα : ∀ e, α e = true ↔ I.Holds e)
    (hβ : ∀ c, β c = true ↔ (curryModel I value).Holds c) (hf : Transformed sig pool s f h) : h.eval β = f.eval α := by
  obtain ⟨g, hfst, hsnd⟩ := hf
  have hg : g.eval β = f.eval α := by
    refine hfst.eval β α fun e k ⟨hwf, c, hk, hc⟩ => ?_
    rw [hk, Formula.eval_atom, Bool.eq_iff_iff, hβ, hα]
    exact CurriedEquality.holds_iff hrealizes hwf hc
  rw [← hg]
  refine hsnd.eval β β fun c k ⟨eqs, hk, hc⟩ => ?_
  rw [hk, Bool.eq_iff_iff, eval_create_and, hβ]
  simp only [hβ]
  exact FlatEquality.holds_iff hrealizes hc

end Interpretation

/-! ## From models to interpretations -/

/-- All sorts get the domain of the curry sort, and functions are applied to one argument after the
other. -/
def interpretation (sig : Signature Var F S) (M : CurryModel.{u}) (s : Stores Var F) :
    Interpretation sig where
  Carrier _ := M.Carrier
  var v :=
    match s.termStore (.var v) with
    | some c => M.eval c
    | none => M.value 0
  app f args :=
    match s.constantsStore f with
    | some c => (args.map fun v => v.2).foldl M.app (M.eval c)
    | none => M.value 0

section Model

variable {M : CurryModel.{u}}

theorem curriedArgs_foldl {args : List (UTerm Var F)} (value : UTerm Var F → M.Carrier)
    (ih : ∀ t' ∈ args, ∀ c, s.Curried t' c → value t' = M.eval c) {sub res : CurryTerm}
    (h : s.CurriedArgs sub args res) :
    (args.map value).foldl M.app (M.eval sub) = M.eval res := by
  induction args generalizing sub with
  | nil =>
    cases h
    rfl
  | cons arg args ihl =>
    cases h with
    | cons harg hargs =>
      rw [map_cons, foldl_cons, ih arg mem_cons_self _ harg]
      exact ihl (fun t' ht' => ih t' (mem_cons_of_mem arg ht')) hargs

theorem Curried.eval_interpretation {t' : UTerm Var F} {c : CurryTerm} (h : s.Curried t' c) :
    (interpretation sig M s).eval t' = ⟨t'.sort sig, M.eval c⟩ := by
  induction t' using UTerm.induction generalizing c with
  | hvar v =>
    cases h with
    | var hv =>
      rw [Interpretation.eval_var]
      simp only [interpretation, hv]
      rfl
  | hinst f args ih =>
    cases h with
    | @inst _ n _ _ hf hargs =>
      have hval := curriedArgs_foldl
        (fun t' => ((interpretation sig M s).eval t').2)
        (fun t' ht' c hc => by rw [ih t' ht' hc]) hargs
      have happ : (interpretation sig M s).app f (args.map (interpretation sig M s).eval) =
          M.eval c := by
        rw [← hval]
        simp only [interpretation, hf]
        exact congrArg (List.foldl M.app (M.value n)) map_map
      rw [Interpretation.eval_inst, happ]
      rfl

theorem CurriedEquality.holds_interpretation (hwf : e.WellFormed sig) (hc : s.CurriedEquality e c) :
    (interpretation sig M s).Holds e ↔ M.Holds c := by
  obtain ⟨hlhs, hrhs, hneg⟩ := hc
  have hsame : (interpretation sig M s).eval e.lhs = (interpretation sig M s).eval e.rhs ↔
      M.eval c.lhs = M.eval c.rhs := by
    rw [Curried.eval_interpretation hlhs, Curried.eval_interpretation hrhs, hwf.2.2]
    exact ⟨fun heq => eq_of_heq (Sigma.mk.inj heq).2, fun heq => by rw [heq]⟩
  rw [CurryModel.Holds, Interpretation.Holds, hneg]
  split_ifs
  · exact not_congr hsame
  · exact hsame

theorem Flat.value_eq {c : CurryTerm} {n : ℕ} {defs : List CurryEquality} (h : s.Flat c n defs)
    (hdefs : ∀ d ∈ defs, M.Holds d) : M.value n = M.eval c := by
  induction h with
  | var n => rfl
  | @app l r n nl nr dl dr _ _ _ ihl ihr =>
    have hl := ihl fun d hd => hdefs d (mem_append_left _ (mem_append_left _ hd))
    have hr := ihr fun d hd => hdefs d (mem_append_left _ (mem_append_right _ hd))
    have hn := hdefs _ (mem_append_right _ (mem_singleton_self _))
    rw [CurryModel.Holds, if_neg Bool.false_ne_true] at hn
    rw [CurryModel.eval_app, ← hl, ← hr]
    exact hn.symm

/-- The definitions and the equality of the names imply the equality. -/
theorem FlatEquality.holds
    (hc : s.FlatEquality c eqs) (heqs : ∀ d ∈ eqs, M.Holds d) : M.Holds c := by
  obtain ⟨nl, dl, nr, dr, hl, hr, rfl⟩ := hc
  have hvaluel := Flat.value_eq hl fun d hd =>
    heqs d (mem_append_left _ (mem_append_left _ hd))
  have hvaluer := Flat.value_eq hr fun d hd =>
    heqs d (mem_append_left _ (mem_append_right _ hd))
  have hlast := heqs _ (mem_append_right _ (mem_singleton_self _))
  rw [CurryModel.Holds] at hlast ⊢
  rw [← hvaluel, ← hvaluer]
  exact hlast

theorem Curried.eq_var {t' : UTerm Var F} (ht' : ¬ t'.IsApplication) {c : CurryTerm}
    (hc : s.Curried t' c) : ∃ n, c = .var n := by
  cases hc with
  | var _ => exact ⟨_, rfl⟩
  | @inst f n args res _ hargs =>
    obtain rfl : args = [] := not_not.mp ht'
    cases hargs
    exact ⟨_, rfl⟩

/-- An equality without an application has no definitions. -/
theorem FlatEquality.eq_singleton (he : ¬ e.HasApplication) (hcurried : s.CurriedEquality e c)
    (hc : s.FlatEquality c eqs) : eqs = [c] := by
  obtain ⟨lhs, rhs, negated⟩ := c
  obtain ⟨n, hn⟩ := Curried.eq_var (fun h => he (.inl h)) hcurried.1
  obtain ⟨m, hm⟩ := Curried.eq_var (fun h => he (.inr h)) hcurried.2.1
  obtain rfl : lhs = .var n := hn
  obtain rfl : rhs = .var m := hm
  obtain ⟨nl, dl, nr, dr, hl, hr, rfl⟩ := hc
  cases hl
  cases hr
  rfl

open Classical in
/-- The value of what the second visit replaces an equality by, or its own if there is nothing. -/
noncomputable def flatValue (pool : FormulaPool CurryEquality) (s : Stores Var F)
    (β : CurryEquality → Bool) (c : CurryEquality) : Bool :=
  if h : ∃ k, FlatAtom pool s c k then h.choose.eval β else β c

theorem FlatAtom.eval_eq
    {k : Formula CurryEquality} (hk : FlatAtom pool s c k) : k.eval β = flatValue pool s β c := by
  have hexists : ∃ k, FlatAtom pool s c k := ⟨k, hk⟩
  obtain ⟨eqs, hchoose, hflat⟩ := hexists.choose_spec
  obtain ⟨eqs', rfl, hflat'⟩ := hk
  rw [flatValue, dif_pos hexists, hchoose, hflat.unique hflat']

theorem flatValue_cases (pool : FormulaPool CurryEquality) (s : Stores Var F)
    (β : CurryEquality → Bool) (c : CurryEquality) : flatValue pool s β c = β c ∨
      ∃ eqs, s.FlatEquality c eqs ∧ (flatValue pool s β c = true ↔ ∀ d ∈ eqs, β d = true) := by
  by_cases hexists : ∃ k, FlatAtom pool s c k
  · obtain ⟨k, hk⟩ := hexists
    obtain ⟨eqs, heq, hflat⟩ := hk
    refine .inr ⟨eqs, hflat, ?_⟩
    rw [← FlatAtom.eval_eq ⟨eqs, heq, hflat⟩, heq]
    exact eval_create_and pool β eqs
  · exact .inl (dif_neg hexists)

open Classical in
/-- The value of the curried form of an equality, or its own if there is none. -/
noncomputable def curriedValue (sig : Signature Var F S) (s : Stores Var F)
    (α : UEquality Var F → Bool) (β : CurryEquality → Bool) (e : UEquality Var F) : Bool :=
  if h : ∃ c, e.WellFormed sig ∧ s.CurriedEquality e c then β h.choose else α e

theorem CurriedAtom.eval_eq {k : Formula CurryEquality} (hk : CurriedAtom sig s e k) :
    k.eval β = curriedValue sig s α β e := by
  obtain ⟨hwf, c, rfl, hc⟩ := hk
  have hexists : ∃ c, e.WellFormed sig ∧ s.CurriedEquality e c := ⟨c, hwf, hc⟩
  rw [curriedValue, dif_pos hexists, Formula.eval_atom, hexists.choose_spec.2.unique hc]

theorem curriedValue_cases (sig : Signature Var F S) (s : Stores Var F)
    (α : UEquality Var F → Bool) (β : CurryEquality → Bool) (e : UEquality Var F) :
    curriedValue sig s α β e = α e ∨
      ∃ c, e.WellFormed sig ∧ s.CurriedEquality e c ∧ curriedValue sig s α β e = β c := by
  by_cases hexists : ∃ c, e.WellFormed sig ∧ s.CurriedEquality e c
  · exact .inr ⟨_, hexists.choose_spec.1, hexists.choose_spec.2, dif_pos hexists⟩
  · exact .inl (dif_neg hexists)

/-- If equalities with applications occur positively only, a model of the transformed formula gives
an interpretation of the formula. -/
theorem Transformed.eval_interpretation (hpos : f.OnlyPositive UEquality.HasApplication true)
    (hf : Transformed sig pool s f h) (hα : ∀ e, α e = true ↔ (interpretation sig M s).Holds e)
    (hβ : ∀ c, β c = true ↔ M.Holds c) (hh : h.eval β = true) : f.eval α = true := by
  obtain ⟨g, hfst, hsnd⟩ := hf
  have hle : ∀ c, flatValue pool s β c = true → M.Holds c := by
    intro c hc
    rcases flatValue_cases pool s β c with heq | ⟨eqs, hflat, hiff⟩
    · exact (hβ c).mp (heq ▸ hc)
    · exact FlatEquality.holds hflat fun d hd => (hβ d).mp (hiff.mp hc d hd)
  have hval : h.eval β = f.eval (curriedValue sig s α (flatValue pool s β)) := by
    rw [← hfst.eval (flatValue pool s β) _ fun e k hk => hk.eval_eq,
      ← hsnd.eval β _ fun c k hk => hk.eval_eq]
  -- the values of the equalities with applications only grow
  have hord := Formula.ordered_eval_of_onlyPositive (P := UEquality.HasApplication)
    (α := curriedValue sig s α (flatValue pool s β)) (β := α) (fun e _ he => ?_) (fun e he => ?_)
    hpos
  · exact hord (hval ▸ hh)
  · rcases curriedValue_cases sig s α (flatValue pool s β) e with heq | ⟨c, hwf, hc, heq⟩
    · exact heq ▸ he
    · exact (hα e).mpr ((CurriedEquality.holds_interpretation hwf hc).mpr (hle c (heq ▸ he)))
  · rcases curriedValue_cases sig s α (flatValue pool s β) e with heq | ⟨c, hwf, hc, heq⟩
    · exact heq
    · rw [heq, Bool.eq_iff_iff, hα, CurriedEquality.holds_interpretation hwf hc, ← hβ]
      rcases flatValue_cases pool s β c with hsame | ⟨eqs, hflat, hiff⟩
      · rw [hsame]
      · rw [hiff, FlatEquality.eq_singleton he hc hflat, forall_mem_singleton]

end Model

end Smtrat.Curry
