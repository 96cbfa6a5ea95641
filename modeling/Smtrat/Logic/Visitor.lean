import Smtrat.Logic.Formula

/-!
# Visiting formulas

A visitor applies a function to the nodes of a formula, to the subformulas before the node they
belong to.  A node is built anew only if one of its subformulas has changed.
-/

namespace PropFormula

universe u

variable {A : Type u} [DecidableEq A]

namespace Formula

variable (pool : FormulaPool A) (func : Formula A → Formula A)

mutual

/-- `FormulaVisitor::visitResult` -/
def visitResult : Formula A → Formula A
  | .const b => func (.const b)
  | .atom a => func (.atom a)
  | .app c fs =>
    let newSubformulas := visitResults fs
    func (if newSubformulas = fs then .app c fs else pool.create c newSubformulas)

def visitResults : List (Formula A) → List (Formula A)
  | [] => []
  | f :: fs => visitResult f :: visitResults fs

end

@[simp] theorem visitResults_eq_map (fs : List (Formula A)) :
    visitResults pool func fs = fs.map (visitResult pool func) := by
  induction fs with
  | nil => rfl
  | cons f fs ih => rw [visitResults, ih, List.map_cons]

/-- A visit keeps the value of a formula if the function keeps the value of each formula whose atoms
are of some kind, and mentions atoms of this kind only. -/
theorem visitResult_spec (α : A → Bool) (P : A → Prop)
    (hfunc : ∀ f, (∀ a, f.Mentions a → P a) →
      (func f).eval α = f.eval α ∧ ∀ a, (func f).Mentions a → P a)
    (f : Formula A) (hf : ∀ a, f.Mentions a → P a) :
    (visitResult pool func f).eval α = f.eval α ∧
      ∀ a, (visitResult pool func f).Mentions a → P a := by
  induction f using Formula.induction with
  | hconst b =>
    rw [visitResult]
    exact hfunc _ hf
  | hatom a =>
    rw [visitResult]
    exact hfunc _ hf
  | happ c fs ih =>
    have hsub (f) (hmem : f ∈ fs) := ih f hmem fun a ha =>
      hf a ((mentions_app a c fs).mpr ⟨f, hmem, ha⟩)
    rw [visitResult, visitResults_eq_map]
    split_ifs
    · exact hfunc _ hf
    · -- the new node has the value of the old one
      have hval : (pool.create c (fs.map (visitResult pool func))).eval α
          = (Formula.app c fs).eval α := by
        rw [FormulaPool.eval_create, List.map_map, eval_app]
        exact congrArg c.eval (List.map_congr_left fun f hmem => (hsub f hmem).1)
      obtain ⟨heval, hment⟩ := hfunc (pool.create c (fs.map (visitResult pool func))) fun a ha => by
          obtain ⟨g, hg, ha⟩ := pool.mentions_create ha
          obtain ⟨f, hmem, rfl⟩ := List.mem_map.mp hg
          exact (hsub f hmem).2 a ha
      exact ⟨heval.trans hval, hment⟩

end Formula

end PropFormula

/-!
## Visits that replace atoms

A visitor whose function changes atoms only replaces them one after the other, with a state that is
handed on, and builds the nodes above them anew.
-/

namespace PropFormula

universe u v w

variable {A : Type u} {B : Type v} {σ : Type w}

namespace Formula

section Defs

variable (pool : FormulaPool B) (func : A → σ → Formula B × σ)

mutual

/-- `FormulaVisitor::visitResult` for a function that leaves all formulas but atoms as they are. -/
def visitAtoms : Formula A → σ → Formula B × σ
  | .const b, s => (.const b, s)
  | .atom a, s => func a s
  | .app c fs, s =>
    let (newSubformulas, s) := visitAtomsAll fs s
    (pool.create c newSubformulas, s)

def visitAtomsAll : List (Formula A) → σ → List (Formula B) × σ
  | [], s => ([], s)
  | f :: fs, s =>
    let (g, s) := visitAtoms f s
    let (gs, s) := visitAtomsAll fs s
    (g :: gs, s)

end

end Defs

/-- The second formula is the first one with its atoms replaced: it has the value of the first one
if the atoms are given the values of their replacements, and no other atoms than these have. -/
structure Rebuilt (R : A → Formula B → Prop) (f : Formula A) (g : Formula B) : Prop where
  eval : ∀ (β : B → Bool) (α : A → Bool), (∀ a h, R a h → h.eval β = α a) → g.eval β = f.eval α
  mentions : ∀ b, g.Mentions b → ∃ a h, R a h ∧ h.Mentions b

theorem Rebuilt.mono {R R' : A → Formula B → Prop} {f : Formula A} {g : Formula B}
    (h : Rebuilt R f g) (hR : ∀ a h, R a h → R' a h) : Rebuilt R' f g where
  eval β α hα := h.eval β α fun a k hk => hα a k (hR a k hk)
  mentions b hb := by
    obtain ⟨a, k, hk, hment⟩ := h.mentions b hb
    exact ⟨a, k, hR a k hk, hment⟩

/-- States that only grow, with replacements that remain valid. -/
structure Growing (le : σ → σ → Prop) (R : σ → A → Formula B → Prop) : Prop where
  refl : ∀ s, le s s
  trans : ∀ {s t u}, le s t → le t u → le s u
  mono : ∀ {s t a h}, le s t → R s a h → R t a h

variable {le : σ → σ → Prop} {R : σ → A → Formula B → Prop} {P : A → Prop}

/-- A visit is right if its function is. -/
theorem visitAtoms_spec (pool : FormulaPool B) (func : A → σ → Formula B × σ) (Inv : σ → Prop)
    (hgrowing : Growing le R)
    (hfunc : ∀ a s, P a → Inv s → Inv (func a s).2 ∧ le s (func a s).2 ∧
      R (func a s).2 a (func a s).1) {f : Formula A} (hf : ∀ a, f.Mentions a → P a) {s : σ}
    (hs : Inv s) : Inv (visitAtoms pool func f s).2 ∧ le s (visitAtoms pool func f s).2 ∧
      Rebuilt (R (visitAtoms pool func f s).2) f (visitAtoms pool func f s).1 := by
  induction f using Formula.induction generalizing s with
  | hconst b =>
    rw [visitAtoms]
    exact ⟨hs, hgrowing.refl s, fun β α _ => by rw [eval_const, eval_const],
      fun b' hb' => absurd hb' (mentions_const b' b)⟩
  | hatom a =>
    rw [visitAtoms]
    obtain ⟨hinv, hle, hR⟩ := hfunc a s (hf a ((mentions_atom a a).mpr rfl)) hs
    exact ⟨hinv, hle, fun β α hα => by rw [eval_atom, hα a _ hR], fun b hb => ⟨a, _, hR, hb⟩⟩
  | happ c fs ih =>
    have hsub : ∀ f ∈ fs, ∀ a, f.Mentions a → P a :=
      fun f hmem a ha => hf a ((mentions_app a c fs).mpr ⟨f, hmem, ha⟩)
    have key : Inv (visitAtomsAll pool func fs s).2 ∧ le s (visitAtomsAll pool func fs s).2 ∧
        (∀ (β : B → Bool) (α : A → Bool),
          (∀ a h, R (visitAtomsAll pool func fs s).2 a h → h.eval β = α a) →
            (visitAtomsAll pool func fs s).1.map (eval β) = fs.map (eval α)) ∧
        ∀ g ∈ (visitAtomsAll pool func fs s).1, ∀ b, g.Mentions b →
          ∃ a h, R (visitAtomsAll pool func fs s).2 a h ∧ h.Mentions b := by
      clear hf
      induction fs generalizing s with
      | nil =>
        rw [visitAtomsAll]
        exact ⟨hs, hgrowing.refl s, fun _ _ _ => rfl, fun g hg => absurd hg List.not_mem_nil⟩
      | cons f fs ihl =>
        obtain ⟨hinv₁, hle₁, hbuilt₁⟩ := ih f List.mem_cons_self (hsub f List.mem_cons_self) hs
        obtain ⟨hinv₂, hle₂, hvals, hment⟩ := ihl
          (fun g hg => ih g (List.mem_cons_of_mem f hg)) hinv₁
          (fun g hg => hsub g (List.mem_cons_of_mem f hg))
        have hfst := hbuilt₁.mono fun a h hh => hgrowing.mono hle₂ hh
        rw [visitAtomsAll]
        refine ⟨hinv₂, hgrowing.trans hle₁ hle₂, fun β α hα => ?_, ?_⟩
        · exact congrArg₂ List.cons (hfst.eval β α hα) (hvals β α hα)
        · exact List.forall_mem_cons.mpr ⟨hfst.mentions, hment⟩
    obtain ⟨hinv, hle, hvals, hment⟩ := key
    rw [visitAtoms]
    refine ⟨hinv, hle, fun β α hα => ?_, fun b hb => ?_⟩
    · rw [FormulaPool.eval_create, eval_app, hvals β α hα]
    · obtain ⟨g, hg, hb⟩ := pool.mentions_create hb
      exact hment g hg b hb

end Formula

end PropFormula

/-!
## Replacing subformulas

A substitutor replaces subformulas by other formulas.  Which occurrences it finds depends on how
formulas are stored, so it is any way of replacing that keeps the value of the formula wherever
the formulas replaced have the values of their replacements.
-/

namespace PropFormula

universe u

variable {A : Type u}

/-- A way to replace subformulas. -/
structure FormulaSubstitutor (A : Type u) where
  substitute : Formula A → List (Formula A × Formula A) → Formula A
  eval_substitute : ∀ α f repl, (∀ r ∈ repl, r.1.eval α = r.2.eval α) →
    (substitute f repl).eval α = f.eval α

section Topmost

variable [DecidableEq A] (repl : List (Formula A × Formula A))

mutual

/-- The topmost occurrences are replaced; what is put in their place is not searched again. -/
def Formula.replace : Formula A → Formula A
  | .const b => (repl.lookup (.const b)).getD (.const b)
  | .atom a => (repl.lookup (.atom a)).getD (.atom a)
  | .app c fs => (repl.lookup (.app c fs)).getD (.app c (Formula.replaceAll fs))

def Formula.replaceAll : List (Formula A) → List (Formula A)
  | [] => []
  | f :: fs => Formula.replace f :: Formula.replaceAll fs

end

@[simp] theorem Formula.replaceAll_eq_map (fs : List (Formula A)) :
    Formula.replaceAll repl fs = fs.map (Formula.replace repl) := by
  induction fs with
  | nil => rfl
  | cons f fs ih => rw [Formula.replaceAll, ih, List.map_cons]

variable {repl} {α : A → Bool} (h : ∀ r ∈ repl, r.1.eval α = r.2.eval α)

include h

theorem eval_lookup_getD {f g : Formula A} (hg : g.eval α = f.eval α) :
    ((repl.lookup f).getD g).eval α = f.eval α := by
  cases hlook : repl.lookup f with
  | none => exact hg
  | some r =>
    obtain ⟨l₁, l₂, hrepl, -⟩ := List.lookup_eq_some_iff.mp hlook
    have hmem : (f, r) ∈ repl := by simp [hrepl]
    exact (h _ hmem).symm

theorem Formula.eval_replace (f : Formula A) : (f.replace repl).eval α = f.eval α := by
  induction f using Formula.induction with
  | hconst b =>
    rw [Formula.replace]
    exact eval_lookup_getD h rfl
  | hatom a =>
    rw [Formula.replace]
    exact eval_lookup_getD h rfl
  | happ c fs ih =>
    rw [Formula.replace]
    refine eval_lookup_getD h ?_
    rw [Formula.replaceAll_eq_map, Formula.eval_app, Formula.eval_app, List.map_map]
    exact congrArg c.eval (List.map_congr_left ih)

end Topmost

/-- The substitutor that builds formulas as written. -/
def FormulaSubstitutor.topmost (A : Type u) [DecidableEq A] : FormulaSubstitutor A where
  substitute := fun f repl => f.replace repl
  eval_substitute := fun _ f _ h => Formula.eval_replace h f

end PropFormula
