import Smtrat.UFCegar.Flattening

/-!
# Functional consistency

Flattened formulas are satisfiable as soon as the formulas are.  A model of the flattened formulas
gives an interpretation of the functions, if it gives applications of a function to equal arguments
equal values.
-/

namespace Smtrat.UFCegar

open PropFormula Stores List
open Curry (UTerm UEquality Signature Interpretation)

universe u

variable {Var F S : Type u} {sig : Signature Var F S} {s t : Stores Var F}

/-! ## Flattened formulas -/

/-- What an equality is replaced by. -/
def FlatAtom (sig : Signature Var F S) (s : Stores Var F) (e : UEquality Var F)
    (g : Formula FlatEquality) : Prop :=
  e.WellFormed sig ∧ s.Named e.lhs ∧ s.Named e.rhs ∧ g = .atom (s.flat e)

variable {e : UEquality Var F} {g : Formula FlatEquality}

theorem FlatAtom.mono (hext : Extends s t) (h : FlatAtom sig s e g) : FlatAtom sig t e g := by
  obtain ⟨hwf, hl, hr, rfl⟩ := h
  refine ⟨hwf, hext.named hl, hext.named hr, ?_⟩
  rw [flat, flat, hext.name hl, hext.name hr]

theorem growing_flatAtom (sig : Signature Var F S) : Formula.Growing Extends (FlatAtom sig) where
  refl _ _ _ := id
  trans h h' term n hn := h' term n (h term n hn)
  mono h h' := h'.mono h

variable {f : Formula (UEquality Var F)}

theorem visit_spec [DecidableEq Var] [DecidableEq F] (pool : FormulaPool FlatEquality)
    (h : Inv sig s) (hf : ∀ e, f.Mentions e → e.WellFormed sig ∧ Simple e.lhs ∧ Simple e.rhs) :
    Grows sig s (f.visitAtoms pool (fun e s => (.atom (s.flatten e).1, (s.flatten e).2)) s).2 ∧
      Formula.Rebuilt
        (FlatAtom sig (f.visitAtoms pool (fun e s => (.atom (s.flatten e).1, (s.flatten e).2)) s).2)
        f (f.visitAtoms pool (fun e s => (.atom (s.flatten e).1, (s.flatten e).2)) s).1 := by
  obtain ⟨⟨hinv, href⟩, hext, hrebuilt⟩ := Formula.visitAtoms_spec pool
    (fun e s => (.atom (s.flatten e).1, (s.flatten e).2))
    (fun t => Inv sig t ∧ t.refined = s.refined) (growing_flatAtom sig)
    (fun e t he ht => by
      obtain ⟨hwf, hl, hr⟩ := he
      obtain ⟨hgrows, hflat, hnamel, hnamer⟩ := flatten_spec ⟨hwf.1, hl⟩ ⟨hwf.2.1, hr⟩ ht.1
      exact ⟨⟨hgrows.inv, hgrows.refined.trans ht.2⟩, hgrows.extends_, hwf, hnamel, hnamer,
        congrArg _ hflat⟩)
    hf ⟨h, rfl⟩
  exact ⟨⟨hinv, hext, href⟩, hrebuilt⟩

/-! ## Constraints -/

variable {β : FlatEquality → Bool}

theorem eval_constraintFormula (pool : FormulaPool FlatEquality) {M : FlatModel.{u}}
    (hβ : ∀ c, β c = true ↔ M.Holds c) (p : InstancePair Var F) :
    (s.constraintFormula pool p).eval β = true ↔
      ((∀ q ∈ p.1.args.zip p.2.args, M.value (s.name q.1) = M.value (s.name q.2)) →
        M.value (s.name p.1.term) = M.value (s.name p.2.term)) := by
  have hequal : ∀ n m, β ⟨n, m, false⟩ = true ↔ M.value n = M.value m := by
    intro n m
    rw [hβ, FlatModel.Holds, if_neg Bool.false_ne_true]
  rw [constraintFormula, FormulaPool.eval_create, map_cons, map_cons, map_nil,
    Connective.eval_implies, FormulaPool.eval_create, Connective.eval_and, Formula.eval_atom,
    Bool.or_eq_true, Bool.not_eq_true', hequal, ← Bool.not_eq_true, ← imp_iff_not_or,
    all_map, all_eq_true, argumentEqualities, forall_mem_map]
  simp only [Function.comp_apply, Formula.eval_atom, id_eq, hequal]

theorem map_eq_of_zip {A B : Type*} {f : A → B} {as bs : List A} (hlen : as.length = bs.length)
    (h : ∀ q ∈ as.zip bs, f q.1 = f q.2) : as.map f = bs.map f := by
  induction as generalizing bs with
  | nil =>
    obtain rfl : bs = [] := length_eq_zero_iff.mp hlen.symm
    rfl
  | cons a as ih =>
    cases bs with
    | nil => cases hlen
    | cons b bs =>
      rw [zip_cons_cons, forall_mem_cons] at h
      rw [map_cons, map_cons, h.1, ih (Nat.succ.inj hlen) h.2]

theorem zip_of_map_eq {A B : Type*} {f : A → B} {as bs : List A} (h : as.map f = bs.map f)
    (q : A × A) (hq : q ∈ as.zip bs) : f q.1 = f q.2 := by
  induction as generalizing bs with
  | nil => cases hq
  | cons a as ih =>
    cases bs with
    | nil => cases hq
    | cons b bs =>
      rw [map_cons, map_cons, List.cons.injEq] at h
      rw [zip_cons_cons] at hq
      rcases mem_cons.mp hq with rfl | hq
      · exact h.1
      · exact ih h.2 hq

/-! ## From interpretations to values of names -/

variable {term : UTerm Var F}

section Interpretation

variable (I : Interpretation sig)

open Classical in
/-- The names get the values of the terms. -/
noncomputable def flatModel (s : Stores Var F) : FlatModel.{u} where
  Carrier := Option I.Value
  value n := if h : ∃ term, s.termStore term = some n then some (I.eval h.choose) else none

variable {I}

theorem flatModel_value (h : Inv sig s) (hterm : s.Named term) :
    (flatModel I s).value (s.name term) = some (I.eval term) := by
  have hexists : ∃ term', s.termStore term' = some (s.name term) := ⟨term, hterm.termStore⟩
  have hchoose : hexists.choose = term := h.injective hexists.choose_spec hterm.termStore
  refine (dif_pos hexists).trans ?_
  rw [hchoose]

theorem flatModel_value_eq (h : Inv sig s) {term' : UTerm Var F} (hterm : s.Named term)
    (hterm' : s.Named term') :
    (flatModel I s).value (s.name term) = (flatModel I s).value (s.name term') ↔
      I.eval term = I.eval term' := by
  rw [flatModel_value h hterm, flatModel_value h hterm']
  exact Option.some_inj

theorem holds_flatModel (h : Inv sig s) (hl : s.Named e.lhs)
    (hr : s.Named e.rhs) : (flatModel I s).Holds (s.flat e) ↔ I.Holds e := by
  rw [FlatModel.Holds, Interpretation.Holds]
  cases he : e.negated with
  | true =>
    rw [if_pos (show (s.flat e).negated = true from he), if_pos rfl]
    exact not_congr (flatModel_value_eq h hl hr)
  | false =>
    rw [if_neg (show ¬ (s.flat e).negated = true by simp [flat, he]), if_neg Bool.false_ne_true]
    exact flatModel_value_eq h hl hr

/-- Interpretations are functional. -/
theorem constraint_flatModel (h : Inv sig s) (pool : FormulaPool FlatEquality)
    (hβ : ∀ c, β c = true ↔ (flatModel I s).Holds c)
    {p : InstancePair Var F} (hp : s.Constrainable p) :
    (s.constraintFormula pool p).eval β = true := by
  obtain ⟨⟨f, as⟩, ⟨g, bs⟩⟩ := p
  obtain rfl : f = g := hp.sameFunction
  have hlen : as.length = bs.length := by
    have hwf : (UTerm.inst f as).WellFormed sig := (h.admissible hp.fst).1
    have hwf' : (UTerm.inst f bs).WellFormed sig := (h.admissible hp.snd).1
    cases hwf with
    | inst ha _ =>
      cases hwf' with
      | inst hb _ => exact ha.trans hb.symm
  rw [eval_constraintFormula pool hβ]
  intro hargs
  have heval : as.map I.eval = bs.map I.eval := by
    refine map_eq_of_zip hlen fun q hq => ?_
    exact (flatModel_value_eq h (hp.args q hq).1 (hp.args q hq).2).mp (hargs q hq)
  rw [flatModel_value_eq h hp.fst hp.snd]
  simp only [UFInstance.term, Interpretation.eval_inst, heval]

/-- The flattened formula has the value of the formula. -/
theorem eval_flatModel (h : Inv sig s) {α : UEquality Var F → Bool}
    (hα : ∀ e, α e = true ↔ I.Holds e)
    (hβ : ∀ c, β c = true ↔ (flatModel I s).Holds c) (hf : Formula.Rebuilt (FlatAtom sig s) f g) :
    g.eval β = f.eval α := by
  refine hf.eval β α fun e k ⟨_, hl, hr, hk⟩ => ?_
  rw [hk, Formula.eval_atom, Bool.eq_iff_iff, hβ, hα]
  exact holds_flatModel h hl hr

end Interpretation

/-! ## From values of names to interpretations -/

/-- Applications of a function to equal arguments have equal values. -/
def Consistent (M : FlatModel.{u}) (s : Stores Var F) : Prop :=
  ∀ i ∈ s.instances, ∀ j ∈ s.instances, i.uninterpretedFunction = j.uninterpretedFunction →
    i.args.map (fun x => M.value (s.name x)) = j.args.map (fun x => M.value (s.name x)) →
      M.value (s.name i.term) = M.value (s.name j.term)

section Model

variable {M : FlatModel.{u}}

open Classical in
/-- All sorts get the domain of the fresh variables, and functions the values of their
applications. -/
noncomputable def interpretation (sig : Signature Var F S) (M : FlatModel.{u})
    (s : Stores Var F) : Interpretation sig where
  Carrier _ := M.Carrier
  var v := M.value (s.name (.var v))
  app f args :=
    if h : ∃ i ∈ s.instances, i.uninterpretedFunction = f ∧
        i.args.map (fun x => M.value (s.name x)) = args.map fun v => v.2
    then M.value (s.name h.choose.term) else M.value 0

theorem eval_interpretation (h : Inv sig s) (hconsis : Consistent M s) (hterm : s.Named term) :
    (interpretation sig M s).eval term = ⟨term.sort sig, M.value (s.name term)⟩ := by
  cases term with
  | var v => rw [Interpretation.eval_var]; rfl
  | inst f args =>
    have hi : (⟨f, args⟩ : UFInstance Var F) ∈ s.instances := (h.instances _).mpr hterm
    have harg : ∀ x ∈ args, M.value (s.name x) = ((interpretation sig M s).eval x).2 := by
      intro x hx
      obtain ⟨v, rfl⟩ := (h.admissible hterm).2 x hx
      rw [Interpretation.eval_var]
      rfl
    have hargs : args.map (fun x => M.value (s.name x)) =
        (args.map (interpretation sig M s).eval).map fun v => v.2 :=
      (map_congr_left harg).trans map_map.symm
    have hexists : ∃ i ∈ s.instances, i.uninterpretedFunction = f ∧
        i.args.map (fun x => M.value (s.name x)) =
          (args.map (interpretation sig M s).eval).map fun v => v.2 :=
      ⟨⟨f, args⟩, hi, rfl, hargs⟩
    obtain ⟨hmem, hf, hvals⟩ := hexists.choose_spec
    have hval : (interpretation sig M s).app f (args.map (interpretation sig M s).eval) =
        M.value (s.name (.inst f args)) :=
      (dif_pos hexists).trans (hconsis _ hmem ⟨f, args⟩ hi hf (hvals.trans hargs.symm))
    rw [Interpretation.eval_inst, hval]
    rfl

theorem holds_interpretation (h : Inv sig s) (hconsis : Consistent M s)
    (hwf : e.WellFormed sig) (hl : s.Named e.lhs) (hr : s.Named e.rhs) :
    (interpretation sig M s).Holds e ↔ M.Holds (s.flat e) := by
  have hsame : (interpretation sig M s).eval e.lhs = (interpretation sig M s).eval e.rhs ↔
      M.value (s.name e.lhs) = M.value (s.name e.rhs) := by
    rw [eval_interpretation h hconsis hl, eval_interpretation h hconsis hr, hwf.2.2]
    exact ⟨fun heq => eq_of_heq (Sigma.mk.inj heq).2, fun heq => by rw [heq]⟩
  rw [FlatModel.Holds, Interpretation.Holds]
  cases he : e.negated with
  | true =>
    rw [if_pos (show (s.flat e).negated = true from he), if_pos rfl]
    exact not_congr hsame
  | false =>
    rw [if_neg (show ¬ (s.flat e).negated = true by simp [flat, he]), if_neg Bool.false_ne_true]
    exact hsame

/-- The formula has the value of the flattened one. -/
theorem eval_interpretation_eq (h : Inv sig s) (hconsis : Consistent M s)
    {α : UEquality Var F → Bool} (hα : ∀ e, α e = true ↔ (interpretation sig M s).Holds e) (hβ : ∀ c, β c = true ↔ M.Holds c) (hf : Formula.Rebuilt (FlatAtom sig s) f g) :
    g.eval β = f.eval α := by
  refine hf.eval β α fun e k ⟨hwf, hl, hr, hk⟩ => ?_
  rw [hk, Formula.eval_atom, Bool.eq_iff_iff, hβ, hα]
  exact (holds_interpretation h hconsis hwf hl hr).symm

/-- All pairs of applications of a function have been treated. -/
def Complete (s : Stores Var F) : Prop :=
  ∀ i ∈ s.instances, ∀ j ∈ s.instances, i.uninterpretedFunction = j.uninterpretedFunction →
    i ≠ j → (i, j) ∈ s.refined ∨ (j, i) ∈ s.refined

/-- The constraints of all pairs are enough. -/
theorem consistent_of_complete (pool : FormulaPool FlatEquality)
    (hβ : ∀ c, β c = true ↔ M.Holds c) (hcomplete : Complete s)
    (hcons : ∀ p ∈ s.refined, (s.constraintFormula pool p).eval β = true) :
    Consistent M s := by
  intro i hi j hj hf hargs
  by_cases hne : i = j
  · rw [hne]
  · rcases hcomplete i hi j hj hf hne with hp | hp
    · refine (eval_constraintFormula pool hβ (i, j)).mp (hcons _ hp) ?_
      exact fun q hq => zip_of_map_eq hargs q hq
    · refine ((eval_constraintFormula pool hβ (j, i)).mp (hcons _ hp) ?_).symm
      exact fun q hq => zip_of_map_eq hargs.symm q hq

end Model

end Smtrat.UFCegar
