import Smtrat.Common.Atom
import Smtrat.Modules.OriginBookkeeping

/-!
# Models with symbolic values

A simplification may eliminate variables.  Its model then says how the values of these depend on
those of the others, and it extends the assignments that satisfy the simplified formula.  Such
models compose as long as a later one does not talk about what an earlier one has eliminated.
-/

namespace Smtrat.FPP

open PropFormula SparsePoly List Option

universe u v w

variable {V : Type u} {B : Type v} {M : Type w}

/-- What a model may assign; atoms of other theories stand for their variables. -/
inductive ModelVariable (V : Type u) (B : Type v) where
  | arith (x : V)
  | bool (b : B)
  | theory (t : B)
deriving DecidableEq

def valueOf (a : Assignment V B) : ModelVariable V B → ℝ ⊕ Bool
  | .arith x => .inl (a.arith x)
  | .bool b => .inr (a.bool b)
  | .theory t => .inr (a.theory t)

/-- The assignments have the same values for some variables. -/
def AgreeOn (s : Set (ModelVariable V B)) (a b : Assignment V B) : Prop :=
  ∀ v ∈ s, valueOf a v = valueOf b v

variable {a b : Assignment V B}

theorem AgreeOn.mono {s t : Set (ModelVariable V B)} (h : AgreeOn t a b)
    (hst : s ⊆ t) : AgreeOn s a b :=
  fun v hv => h v (hst hv)

def variablesOfAtom : Atom V B → List (ModelVariable V B)
  | .bool b => [.bool b]
  | .constraint c => (Poly.variables c.lhs).map .arith
  | .theory t => [.theory t]

def variablesOf (f : Formula (Atom V B)) : List (ModelVariable V B) :=
  f.atoms.flatMap variablesOfAtom

theorem mem_variablesOf {f : Formula (Atom V B)} {v : ModelVariable V B} :
    v ∈ variablesOf f ↔ ∃ p, f.Mentions p ∧ v ∈ variablesOfAtom p := by
  simp only [variablesOf, mem_flatMap, Formula.mem_atoms]

theorem holds_of_agreeOn {p : Atom V B}
    (h : AgreeOn {v | v ∈ variablesOfAtom p} a b) : p.Holds a ↔ p.Holds b := by
  cases p with
  | bool x => rw [Atom.Holds, Atom.Holds, Sum.inr.inj (h (.bool x) (mem_singleton_self _))]
  | constraint c =>
    have harith : ∀ x ∈ Poly.variables c.lhs, a.arith x = b.arith x := fun x hx =>
      Sum.inl.inj (h (.arith x) (List.mem_map_of_mem hx))
    rw [Atom.Holds, Atom.Holds, Constraint.Sat, Constraint.Sat, Poly.eval_congr harith]
  | theory t =>
    rw [Atom.Holds, Atom.Holds, Sum.inr.inj (h (.theory t) (mem_singleton_self _))]

/-- Whether a formula is true depends on its variables only. -/
theorem satisfies_of_agreeOn {f : Formula (Atom V B)}
    (h : AgreeOn {v | v ∈ variablesOf f} a b) : a.Satisfies f ↔ b.Satisfies f := by
  rw [Assignment.Satisfies, Assignment.Satisfies, Formula.eval_congr fun p hp => ?_]
  refine decide_eq_decide.mpr (holds_of_agreeOn (h.mono fun v hv => ?_))
  exact mem_variablesOf.mpr ⟨p, hp, hv⟩

/-! ## Models -/

/-- Models and what is relied on: models of different variables are united, and the values that
depend on an excluded variable are evaluated. -/
structure ModelLibrary (M : Type w) (adm : Set (Assignment V B)) where
  empty : M
  /-- The first model, with the assignments of the second one. -/
  update : M → M → M
  /-- The assignments for some variables. -/
  exclude : List (ModelVariable V B) → M → M
  /-- The assignment has the values that the model says. -/
  Agrees : M → Assignment V B → Prop
  assigned : M → Set (ModelVariable V B)
  /-- The variables that the values depend on. -/
  mentions : M → Set (ModelVariable V B)
  agrees_congr : ∀ m a b, AgreeOn (assigned m ∪ mentions m) a b → Agrees m a → Agrees m b
  agrees_of_assigned_empty : ∀ m a, assigned m = ∅ → Agrees m a
  assigned_empty : assigned empty = ∅
  assigned_update : ∀ m m', Disjoint (assigned m) (assigned m') →
    assigned (update m m') = assigned m ∪ assigned m'
  agrees_update : ∀ m m' a, Disjoint (assigned m) (assigned m') →
    (Agrees (update m m') a ↔ Agrees m a ∧ Agrees m' a)
  assigned_exclude : ∀ vs m, assigned (exclude vs m) ⊆ {v | v ∈ vs}
  agrees_exclude : ∀ vs m a, Agrees m a → Agrees (exclude vs m) a
  agrees_of_exclude : ∀ vs m a, (∃ b ∈ adm, Agrees m b) → a ∈ adm → Agrees (exclude vs m) a →
    ∃ b ∈ adm, Agrees m b ∧ AgreeOn {v | v ∈ vs} a b

/-- The formulas hold under an admissible assignment. -/
def Satisfiable (adm : Set (Assignment V B)) (fs : List (Formula (Atom V B))) : Prop :=
  ∃ a ∈ adm, ∀ f ∈ fs, a.Satisfies f

variable {adm : Set (Assignment V B)} (lib : ModelLibrary M adm)

/-- There are assignments with the values of the model, and they satisfy the formulas. -/
def IsModel (m : M) (fs : List (Formula (Atom V B))) : Prop :=
  (∃ a ∈ adm, lib.Agrees m a) ∧ ∀ a ∈ adm, lib.Agrees m a → ∀ f ∈ fs, a.Satisfies f

/-- The model extends the assignments that satisfy the formula `g` to such that satisfy `fs`. -/
structure Extends (fs : List (Formula (Atom V B))) (g : Formula (Atom V B)) (m : M) : Prop where
  eliminated : ∀ v ∈ variablesOf g, v ∉ lib.assigned m
  realizable : ∀ a ∈ adm, ∃ b ∈ adm, AgreeOn (lib.assigned m)ᶜ a b ∧ lib.Agrees m b
  satisfies : ∀ a ∈ adm, a.Satisfies g → lib.Agrees m a → ∀ f ∈ fs, a.Satisfies f

/-- A model that does not talk about the variables which another one eliminated. -/
def Separate (p m : M) : Prop := Disjoint (lib.assigned p) (lib.assigned m ∪ lib.mentions m)

variable {lib} {fs : List (Formula (Atom V B))} {g h : Formula (Atom V B)} {p m : M}

theorem Separate.disjoint (hsep : Separate lib p m) : Disjoint (lib.assigned p) (lib.assigned m) :=
  hsep.mono_right Set.subset_union_left

/-- An assignment with the values of one model gets those of another one. -/
theorem Extends.realize (hp : Extends lib fs g p) (hsep : Separate lib p m) (ha : a ∈ adm)
    (hm : lib.Agrees m a) :
    ∃ b ∈ adm, AgreeOn (lib.assigned p)ᶜ a b ∧ lib.Agrees p b ∧ lib.Agrees m b := by
  obtain ⟨b, hb, hagree, hpb⟩ := hp.realizable a ha
  refine ⟨b, hb, hagree, hpb, lib.agrees_congr m a b (hagree.mono fun v hv => ?_) hm⟩
  exact fun hvp => Set.disjoint_left.mp hsep hvp hv

/-- An equivalent formula with no other variables. -/
theorem Extends.congr (hp : Extends lib fs g p)
    (hvars : ∀ v ∈ variablesOf h, v ∈ variablesOf g)
    (hsat : ∀ a : Assignment V B, a.Satisfies h → a.Satisfies g) : Extends lib fs h p :=
  ⟨fun v hv => hp.eliminated v (hvars v hv), hp.realizable,
    fun a ha hah hpa => hp.satisfies a ha (hsat a hah) hpa⟩

theorem Extends.trans (hp : Extends lib fs g p) (hm : Extends lib [g] h m)
    (hsep : Separate lib p m) (hvars : ∀ v ∈ variablesOf h, v ∉ lib.assigned p) :
    Extends lib fs h (lib.update p m) := by
  have hasgn := lib.assigned_update p m hsep.disjoint
  constructor
  case eliminated =>
    intro v hv
    rw [hasgn]
    exact fun hmem => hmem.elim (hvars v hv) (hm.eliminated v hv)
  case realizable =>
    intro a ha
    obtain ⟨b, hb, hab, hmb⟩ := hm.realizable a ha
    obtain ⟨c, hc, hbc, hpc, hmc⟩ := hp.realize hsep hb hmb
    refine ⟨c, hc, fun v hv => ?_, (lib.agrees_update p m c hsep.disjoint).mpr ⟨hpc, hmc⟩⟩
    rw [hasgn, Set.compl_union] at hv
    exact (hab v hv.2).trans (hbc v hv.1)
  case satisfies =>
    intro a ha hah hagrees
    obtain ⟨hpa, hma⟩ := (lib.agrees_update p m a hsep.disjoint).mp hagrees
    exact hp.satisfies a ha (hm.satisfies a ha hah hma g (mem_singleton_self g)) hpa

/-- A model of the simplified formula and the model that extends it give a model. -/
theorem Extends.isModel (hp : Extends lib fs g p) (hm : IsModel lib m [g])
    (hsep : Separate lib p m) :
    IsModel lib (lib.exclude (fs.flatMap variablesOf) (lib.update m p)) fs := by
  obtain ⟨⟨a, ha, hma⟩, hsat⟩ := hm
  have hagrees := fun a => lib.agrees_update m p a hsep.disjoint.symm
  obtain ⟨b, hb, -, hpb, hmb⟩ := hp.realize hsep ha hma
  have hboth : ∃ b ∈ adm, lib.Agrees (lib.update m p) b := ⟨b, hb, (hagrees b).mpr ⟨hmb, hpb⟩⟩
  refine ⟨⟨b, hb, lib.agrees_exclude _ _ b ((hagrees b).mpr ⟨hmb, hpb⟩)⟩, ?_⟩
  intro c hc hexclude f hf
  obtain ⟨d, hd, hd', hcd⟩ := lib.agrees_of_exclude _ _ c hboth hc hexclude
  obtain ⟨hmd, hpd⟩ := (hagrees d).mp hd'
  have hdf := hp.satisfies d hd (hsat d hd hmd g (mem_singleton_self g)) hpd f hf
  refine (satisfies_of_agreeOn (hcd.mono fun v hv => ?_)).mpr hdf
  exact mem_flatMap.mpr ⟨f, hf, hv⟩

/-- Without formulas every model is one, if nothing is left of it. -/
theorem isModel_exclude_nil (hadm : adm.Nonempty) (m : M) :
    IsModel lib (lib.exclude (([] : List (Formula (Atom V B))).flatMap variablesOf) m) [] := by
  obtain ⟨a, ha⟩ := hadm
  refine ⟨⟨a, ha, lib.agrees_of_assigned_empty _ a ?_⟩, nofun⟩
  exact Set.subset_eq_empty (lib.assigned_exclude [] m) (Set.eq_empty_of_forall_notMem nofun)

/-! ## Conjunctions -/

section Conjuncts

variable (hfs : ∀ f, f ∈ fs ↔ f ∈ ModuleInput.conjuncts g)

include hfs

theorem satisfies_iff_conjuncts (a : Assignment V B) : a.Satisfies g ↔ ∀ f ∈ fs, a.Satisfies f := by
  simp only [hfs]
  exact ModuleInput.forall_conjuncts_eval.symm

theorem mem_variablesOf_conjuncts {v : ModelVariable V B} :
    v ∈ variablesOf g ↔ ∃ f ∈ fs, v ∈ variablesOf f := by
  simp only [mem_variablesOf, hfs, ← ModuleInput.exists_conjuncts_mentions (f := g)]
  constructor
  · rintro ⟨q, ⟨f, hf, hq⟩, hv⟩
    exact ⟨f, hf, q, hq, hv⟩
  · rintro ⟨f, hf, q, hq, hv⟩
    exact ⟨q, ⟨f, hf, hq⟩, hv⟩

theorem satisfiable_iff_conjuncts : Satisfiable adm [g] ↔ Satisfiable adm fs := by
  simp only [Satisfiable, forall_mem_singleton, satisfies_iff_conjuncts hfs]

theorem isModel_iff_conjuncts : IsModel lib m [g] ↔ IsModel lib m fs := by
  simp only [IsModel, forall_mem_singleton, satisfies_iff_conjuncts hfs]

theorem Extends.of_conjuncts (hm : Extends lib fs h m) : Extends lib [g] h m :=
  ⟨hm.eliminated, hm.realizable, fun a ha hah hma =>
    forall_mem_singleton.mpr ((satisfies_iff_conjuncts hfs a).mpr (hm.satisfies a ha hah hma))⟩

end Conjuncts

/-- Nothing is eliminated by the empty model. -/
theorem extends_empty (hsat : ∀ a : Assignment V B, a.Satisfies g → ∀ f ∈ fs, a.Satisfies f) :
    Extends lib fs g lib.empty where
  eliminated v _ := by
    rw [lib.assigned_empty]
    exact Set.notMem_empty v
  realizable a ha := ⟨a, ha, fun _ _ => rfl, lib.agrees_of_assigned_empty _ a lib.assigned_empty⟩
  satisfies a _ hag _ := hsat a hag

/-! ## Models without dependencies -/

section Constants

variable [DecidableEq V] [DecidableEq B]

/-- The first assignment for some variables, the second one for the others. -/
def mix (vs : List (ModelVariable V B)) (a b : Assignment V B) : Assignment V B where
  arith x := if .arith x ∈ vs then a.arith x else b.arith x
  bool x := if .bool x ∈ vs then a.bool x else b.bool x
  theory t := if .theory t ∈ vs then a.theory t else b.theory t

theorem valueOf_mix (vs : List (ModelVariable V B)) (a b : Assignment V B)
    (v : ModelVariable V B) : valueOf (mix vs a b) v = if v ∈ vs then valueOf a v else valueOf b v := by
  cases v <;> simp only [valueOf, mix] <;> split_ifs <;> rfl

/-- The models that assign constants. -/
def constants : ModelLibrary (ModelVariable V B → Option (ℝ ⊕ Bool))
    (Set.univ : Set (Assignment V B)) where
  empty _ := none
  update m m' v := (m' v).or (m v)
  exclude vs m v := if v ∈ vs then m v else none
  Agrees m a := ∀ v x, m v = some x → valueOf a v = x
  assigned m := {v | m v ≠ none}
  mentions _ := ∅
  agrees_congr m a b hab h v x hv := by
    have hassigned : m v ≠ none := ne_none_iff_exists'.mpr ⟨x, hv⟩
    exact (hab v (Or.inl hassigned)).symm.trans (h v x hv)
  agrees_of_assigned_empty m a h v x hv := by
    have hassigned : m v ≠ none := ne_none_iff_exists'.mpr ⟨x, hv⟩
    exact absurd (h ▸ hassigned : v ∈ (∅ : Set (ModelVariable V B))) (Set.notMem_empty v)
  assigned_empty := Set.eq_empty_of_forall_notMem fun v hv => hv rfl
  assigned_update m m' _ := by
    ext v
    cases hm : m v <;> cases hm' : m' v <;> simp [hm, hm']
  agrees_update m m' a hdisjoint := by
    constructor
    · refine fun h => ⟨fun v x hv => h v x (or_eq_some_iff.mpr (Or.inr ⟨?_, hv⟩)),
        fun v x hv => h v x (or_eq_some_iff.mpr (Or.inl hv))⟩
      by_contra hassigned
      exact Set.disjoint_left.mp hdisjoint (ne_none_iff_exists'.mpr ⟨x, hv⟩) hassigned
    · rintro ⟨h, h'⟩ v x hv
      rcases or_eq_some_iff.mp hv with hv | ⟨-, hv⟩
      · exact h' v x hv
      · exact h v x hv
  assigned_exclude vs m v hv := by
    by_contra hmem
    exact hv (if_neg hmem)
  agrees_exclude vs m a h v x hv := by
    dsimp only at hv
    split_ifs at hv
    exact h v x hv
  agrees_of_exclude vs m a := by
    rintro ⟨b, -, hb⟩ - h
    refine ⟨mix vs a b, Set.mem_univ _, fun v x hv => ?_, fun v hv => ?_⟩
    · rw [valueOf_mix]
      split_ifs with hmem
      · exact h v x ((if_pos hmem).trans hv)
      · exact hb v x hv
    · rw [valueOf_mix]
      exact (if_pos hv).symm

end Constants

end Smtrat.FPP
