import Smtrat.Logic.Formula

/-!
# Implication chains

An explanation is a formula of conjunctions and disjunctions that is false under the model.  For the
SAT solver it is turned into a chain of clauses over its atoms and a variable for each conjunction:
propagated in order, the clauses imply the negations of these variables until the last clause is
false.  A chain can also be resolved to a single clause.
-/

namespace Smtrat.Chains

open PropFormula List

universe u

variable {A : Type u}

/-! ## Formulas -/

/-- Formulas of conjunctions and disjunctions of atoms. -/
inductive IsAndOr : Formula A → Prop where
  | const (b : Bool) : IsAndOr (.const b)
  | atom (a : A) : IsAndOr (.atom a)
  | and (fs : List (Formula A)) : (∀ f ∈ fs, IsAndOr f) → IsAndOr (.app .and fs)
  | or (fs : List (Formula A)) : (∀ f ∈ fs, IsAndOr f) → IsAndOr (.app .or fs)

/-- The atoms of a clause: those of the formula and the Tseitin variables the pool keeps, one for
each formula. -/
inductive ClauseAtom (A : Type u) where
  | atom (a : A)
  | tseitin (f : Formula A)

instance [DecidableEq A] : DecidableEq (ClauseAtom A)
  | .atom a, .atom b => decidable_of_iff (a = b) (by simp)
  | .tseitin f, .tseitin g => decidable_of_iff (f = g) (by simp)
  | .atom _, .tseitin _ | .tseitin _, .atom _ => isFalse nofun

/-- `FormulaT` with Tseitin variables. -/
abbrev ClauseT (A : Type u) := Formula (ClauseAtom A)

namespace ClauseT

/-- `FormulaT::isNary` -/
def isNary : ClauseT A → Bool
  | .app .and _ | .app .or _ | .app .xor _ | .app .iff _ => true
  | _ => false

/-- `FormulaT::negated`; the negation of an atom is written with `NOT`. -/
def negated : ClauseT A → ClauseT A
  | .const b => .const !b
  | .app .not [f] => f
  | f => .app .not [f]

/-- The literals of a clause. -/
def disjuncts : ClauseT A → List (ClauseT A)
  | .app .or fs => fs
  | f => [f]

/-- The value of the atoms and of the formulas that the Tseitin variables stand for. -/
def extend (α : A → Bool) : ClauseAtom A → Bool
  | .atom a => α a
  | .tseitin f => f.eval α

theorem eval_negated (γ : ClauseAtom A → Bool) (f : ClauseT A) : (negated f).eval γ = !f.eval γ := by
  rw [negated.eq_def]
  split
  · simp
  · simp
  · simp

theorem eval_eq_any (γ : ClauseAtom A → Bool) (f : ClauseT A) :
    f.eval γ = (disjuncts f).any (Formula.eval γ) := by
  rw [disjuncts.eq_def]
  split
  · simp [any_map]
  · simp

theorem disjuncts_eq_singleton {f : ClauseT A} (h : ¬ ∃ fs, f = .app .or fs) : disjuncts f =
    [f] := by
  rw [disjuncts.eq_def]
  split
  · exact absurd ⟨_, rfl⟩ h
  · rfl

end ClauseT

open ClauseT

/-- What is used of `FormulaT( carl::FormulaType::OR, .. )`: it keeps the value, and unless it is
simplified to `TRUE`, it joins the literals of its arguments. -/
structure ClausePool (A : Type u) where
  create : List (ClauseT A) → ClauseT A
  eval_create : ∀ γ fs, (create fs).eval γ = fs.any (Formula.eval γ)
  disjuncts_create : ∀ fs, (∀ f ∈ fs, ∀ l ∈ disjuncts f, l.isNary = false) →
    create fs = .const true ∨
      ∀ l, l ≠ .const false → (l ∈ disjuncts (create fs) ↔ ∃ f ∈ fs, l ∈ disjuncts f)

/-! ## Chains -/

/-- `ClauseChain::Link` -/
structure Link (A : Type u) where
  mClause : ClauseT A
  mImpliedTseitinLiteral : Option (ClauseT A)

namespace Link

/-- The literal implied by a propagating clause, `FALSE` marks a conflicting one. -/
def impliedTseitinLiteral (link : Link A) : Option (ClauseT A) :=
  match link.mImpliedTseitinLiteral with
  | some (.const false) => none
  | m => m

def isPropagating (link : Link A) : Bool := link.impliedTseitinLiteral.isSome

def isConflicting (link : Link A) : Bool :=
  match link.mImpliedTseitinLiteral with
  | some (.const false) => true
  | _ => false

def isOptional (link : Link A) : Bool := link.mImpliedTseitinLiteral.isNone

end Link

/-- `ClauseChain` -/
structure ClauseChain (A : Type u) where
  mClauseChain : List (Link A)
  mTseitinVars : Finset (ClauseT A)

namespace ClauseChain

def empty : ClauseChain A := ⟨[], ∅⟩

variable (chain : ClauseChain A)

def appendPropagating (clause impliedTseitinLiteral : ClauseT A) : ClauseChain A :=
  { chain with mClauseChain := chain.mClauseChain ++ [⟨clause, some impliedTseitinLiteral⟩] }

def appendConflicting (clause : ClauseT A) : ClauseChain A :=
  { chain with mClauseChain := chain.mClauseChain ++ [⟨clause, some (.const false)⟩] }

def appendOptional (clause : ClauseT A) : ClauseChain A :=
  { chain with mClauseChain := chain.mClauseChain ++ [⟨clause, none⟩] }

variable [DecidableEq A]

/-- The chain with a Tseitin variable for the formula. -/
def createTseitinVar (f : Formula A) : ClauseT A × ClauseChain A :=
  (.atom (.tseitin f),
    { chain with mTseitinVars := insert (.atom (.tseitin f)) chain.mTseitinVars })

def isTseitinVar (var : ClauseT A) : Bool := var ∈ chain.mTseitinVars

/-- The Tseitin variables among some literals join those to process, the others the result. -/
def process (lits : List (ClauseT A)) (state : Finset (ClauseT A) × List (ClauseT A)) :
    Finset (ClauseT A) × List (ClauseT A) :=
  (state.1 ∪ (lits.filter chain.isTseitinVar).toFinset,
    state.2 ++ lits.filter fun lit => !chain.isTseitinVar lit)

/-- The loop of `resolve` over the clauses from the last but one to the first. -/
def resolveLoop : List (Link A) → Finset (ClauseT A) × List (ClauseT A) →
    Finset (ClauseT A) × List (ClauseT A)
  | [], state => state
  | link :: links, state =>
    match link.impliedTseitinLiteral with
    | none => resolveLoop links state
    | some literal =>
      if literal.negated ∈ state.1 then
        let lits := if link.mClause.isNary then link.mClause.subformulas.filter (· ≠ literal) else []
        let state := chain.process lits (state.1.erase literal.negated, state.2)
        if state.1 = ∅ then state else resolveLoop links state
      else resolveLoop links state

/-- `ClauseChain::resolve`, of a chain that is not empty. -/
def resolve (pool : ClausePool A) : Option (ClauseT A) :=
  match chain.mClauseChain.reverse with
  | [] => none
  | last :: links =>
    let lits := if last.mClause.isNary then last.mClause.subformulas else [last.mClause]
    some (pool.create (chain.resolveLoop links (chain.process lits (∅, []))).2)

end ClauseChain

/-! ## The transformation -/

section Transformation

variable [DecidableEq A] (pool : ClausePool A) (model : A → Bool) (withEquivalences : Bool)

mutual

/-- `_transformToImplicationChain` -/
def transform : Formula A → ClauseChain A → ClauseT A × ClauseChain A
  | .const b, chain => (.const b, chain)
  | .atom a, chain => (.atom (.atom a), chain)
  | .app .or fs, chain =>
    let (newFormula, chain) := transformDisjuncts fs chain
    (pool.create newFormula, chain)
  | .app .and fs, chain =>
    let (tseitinVar, chain) := chain.createTseitinVar (.app .and fs)
    let (newFormula, chain) := transformConjuncts tseitinVar fs chain
    (tseitinVar, if withEquivalences then
      chain.appendOptional (pool.create (newFormula.map negated ++ [tseitinVar])) else chain)
  | .app _ _, chain => (.const false, chain)

/-- The loop over the subformulas of a disjunction. -/
def transformDisjuncts : List (Formula A) → ClauseChain A → List (ClauseT A) × ClauseChain A
  | [], chain => ([], chain)
  | f :: fs, chain =>
    let (lit, chain) := transform f chain
    let (lits, chain) := transformDisjuncts fs chain
    (lit :: lits, chain)

/-- The loop over the subformulas of a conjunction. -/
def transformConjuncts (tseitinVar : ClauseT A) :
    List (Formula A) → ClauseChain A → List (ClauseT A) × ClauseChain A
  | [], chain => ([], chain)
  | f :: fs, chain =>
    let (lit, chain) := transform f chain
    let clause := pool.create [lit, tseitinVar.negated]
    let chain := if f.eval model = false then chain.appendPropagating clause tseitinVar.negated
      else chain.appendOptional clause
    let (lits, chain) := transformConjuncts tseitinVar fs chain
    (lit :: lits, chain)

end

def transformToImplicationChain (f : Formula A) : ClauseChain A :=
  let (conflictingClause, chain) := transform pool model withEquivalences f .empty
  chain.appendConflicting conflictingClause

end Transformation

/-! ## Propagation -/

/-- The literals that clauses have implied. -/
def impliedLiterals (links : List (Link A)) : List (ClauseT A) :=
  links.filterMap Link.impliedTseitinLiteral

/-- The literal is false under the model and the implied literals. -/
inductive Falsified (model : A → Bool) (implied : List (ClauseT A)) : ClauseT A → Prop where
  | const : Falsified model implied (.const false)
  | atom {a : A} : model a = false → Falsified model implied (.atom (.atom a))
  | tseitin {f : Formula A} : negated (.atom (.tseitin f)) ∈ implied →
      Falsified model implied (.atom (.tseitin f))

/-- A propagating clause implies its literal, and a conflicting one is false. -/
structure Link.Propagates (model : A → Bool) (implied : List (ClauseT A)) (link : Link A) : Prop where
  propagating : ∀ m, link.impliedTseitinLiteral = some m →
    (∃ f, m = negated (.atom (.tseitin f))) ∧ m ∈ disjuncts link.mClause ∧
      ∀ l ∈ disjuncts link.mClause, l ≠ m → Falsified model implied l
  conflicting : link.isConflicting = true → ∀ l ∈ disjuncts link.mClause, Falsified model implied l

/-- The clauses propagate in their order. -/
def PropagatesInOrder (model : A → Bool) : List (ClauseT A) → List (Link A) → Prop
  | _, [] => True
  | implied, link :: links => link.Propagates model implied ∧
      PropagatesInOrder model (implied ++ link.impliedTseitinLiteral.toList) links

section Propagation

variable {model : A → Bool} {implied implied' : List (ClauseT A)} {links : List (Link A)}

theorem Falsified.mono {l : ClauseT A} (h : Falsified model implied l) (hsub : implied ⊆ implied') :
    Falsified model implied' l := by
  cases h with
  | const => exact .const
  | atom ha => exact .atom ha
  | tseitin hf => exact .tseitin (hsub hf)

theorem Link.Propagates.mono {link : Link A} (h : link.Propagates model implied)
    (hsub : implied ⊆ implied') : link.Propagates model implied' where
  propagating m hm := by
    obtain ⟨hvar, hmem, hothers⟩ := h.propagating m hm
    exact ⟨hvar, hmem, fun l hl hne => (hothers l hl hne).mono hsub⟩
  conflicting hconf l hl := (h.conflicting hconf l hl).mono hsub

theorem PropagatesInOrder.mono (h : PropagatesInOrder model implied links) (hsub : implied ⊆ implied') :
    PropagatesInOrder model implied' links := by
  induction links generalizing implied implied' with
  | nil => trivial
  | cons link links ih =>
    refine ⟨h.1.mono hsub, ih h.2 fun m hm => ?_⟩
    exact mem_append.mpr ((mem_append.mp hm).imp_left fun hm => hsub hm)

theorem impliedLiterals_cons (link : Link A) (links : List (Link A)) :
    impliedLiterals (link :: links) = link.impliedTseitinLiteral.toList ++ impliedLiterals links := by
  rw [impliedLiterals, filterMap_cons]
  cases link.impliedTseitinLiteral <;> rfl

theorem propagatesInOrder_append {links' : List (Link A)} :
    PropagatesInOrder model implied (links ++ links') ↔ PropagatesInOrder model implied links ∧
      PropagatesInOrder model (implied ++ impliedLiterals links) links' := by
  induction links generalizing implied with
  | nil => simp [PropagatesInOrder, impliedLiterals]
  | cons link links ih =>
    rw [cons_append, PropagatesInOrder, ih, PropagatesInOrder, and_assoc, impliedLiterals_cons,
      append_assoc]

/-- Clauses that propagate on their own do so behind others. -/
theorem PropagatesInOrder.append {links' : List (Link A)} (h : PropagatesInOrder model [] links)
    (h' : PropagatesInOrder model [] links') : PropagatesInOrder model [] (links ++ links') :=
  propagatesInOrder_append.mpr ⟨h, h'.mono (nil_subset _)⟩

end Propagation

/-! ## Resolution -/

variable {lits : List (ClauseT A)} {f : Formula A}

section Resolution

variable [DecidableEq A] {model : A → Bool} {chain : ClauseChain A}

/-- The set of Tseitin variables of a chain knows those with implied literals. -/
structure ClauseChain.KnowsVars (chain : ClauseChain A) (links : List (Link A)) : Prop where
  implied : ∀ f, negated (.atom (.tseitin f)) ∈ impliedLiterals links →
    chain.isTseitinVar (.atom (.tseitin f)) = true
  tseitin : ∀ l, chain.isTseitinVar l = true → ∃ f, l = .atom (.tseitin f)

/-- The state of the resolution, when some clauses are left: the variables to process are implied to be
false by these, and the literals of the result are false under the model. -/
structure Resolving (model : A → Bool) (links : List (Link A))
    (state : Finset (ClauseT A) × List (ClauseT A)) : Prop where
  toProcess : ∀ l ∈ state.1, ∃ f, l = .atom (.tseitin f) ∧ negated l ∈ impliedLiterals links
  result : ∀ l ∈ state.2, l = .const false ∨ ∃ a, l = .atom (.atom a) ∧ model a = false

/-- The disjunction of the state. -/
def StateHolds (γ : ClauseAtom A → Bool) (state : Finset (ClauseT A) × List (ClauseT A)) : Prop :=
  (∃ l ∈ state.1, l.eval γ = true) ∨ ∃ l ∈ state.2, l.eval γ = true

variable {state : Finset (ClauseT A) × List (ClauseT A)}

theorem Resolving.process {links : List (Link A)}
    (h : Resolving model links state) (hvars : chain.KnowsVars links)
    (hlits : ∀ l ∈ lits, Falsified model (impliedLiterals links) l) :
    Resolving model links (chain.process lits state) where
  toProcess l hl := by
    rw [ClauseChain.process, Finset.mem_union, mem_toFinset, mem_filter] at hl
    rcases hl with hl | ⟨hl, hvar⟩
    · exact h.toProcess l hl
    · cases hlits l hl with
      | const =>
        obtain ⟨f, hf⟩ := hvars.tseitin _ hvar
        cases hf
      | atom ha =>
        obtain ⟨f, hf⟩ := hvars.tseitin _ hvar
        cases hf
      | tseitin hf => exact ⟨_, rfl, hf⟩
  result l hl := by
    rw [ClauseChain.process, mem_append, mem_filter] at hl
    rcases hl with hl | ⟨hl, hvar⟩
    · exact h.result l hl
    · cases hlits l hl with
      | const => exact .inl rfl
      | atom ha => exact .inr ⟨_, rfl, ha⟩
      | tseitin hf =>
        rw [hvars.implied _ hf] at hvar
        cases hvar

theorem stateHolds_process {γ : ClauseAtom A → Bool} :
    StateHolds γ (chain.process lits state) ↔ StateHolds γ state ∨ ∃ l ∈ lits, l.eval γ = true := by
  rw [StateHolds, StateHolds, ClauseChain.process]
  simp only [Finset.mem_union, mem_toFinset, mem_filter, mem_append]
  constructor
  · rintro (⟨l, hl | ⟨hl, -⟩, hval⟩ | ⟨l, hl | ⟨hl, -⟩, hval⟩)
    · exact .inl (.inl ⟨l, hl, hval⟩)
    · exact .inr ⟨l, hl, hval⟩
    · exact .inl (.inr ⟨l, hl, hval⟩)
    · exact .inr ⟨l, hl, hval⟩
  · rintro ((⟨l, hl, hval⟩ | ⟨l, hl, hval⟩) | ⟨l, hl, hval⟩)
    · exact .inl ⟨l, .inl hl, hval⟩
    · exact .inr ⟨l, .inl hl, hval⟩
    · by_cases hvar : chain.isTseitinVar l = true
      · exact .inl ⟨l, .inr ⟨hl, hvar⟩, hval⟩
      · exact .inr ⟨l, .inr ⟨hl, by simpa using hvar⟩, hval⟩

/-- The literals of a propagating clause that `resolve` looks at. -/
theorem mem_others {clause m : ClauseT A} (hm : m = negated (.atom (.tseitin f)))
    (hmem : m ∈ disjuncts clause) (l : ClauseT A) :
    l ∈ (if clause.isNary then clause.subformulas.filter (· ≠ m) else []) ↔
      l ∈ disjuncts clause ∧ l ≠ m := by
  by_cases hor : ∃ fs, clause = .app .or fs
  · obtain ⟨fs, rfl⟩ := hor
    have hnary : isNary (.app .or fs : ClauseT A) = true := rfl
    rw [if_pos hnary, mem_filter, decide_eq_true_eq]
    rfl
  · have hsingle := disjuncts_eq_singleton hor
    rw [hsingle, mem_singleton] at hmem
    have hnary : ¬ clause.isNary = true := by
      rw [← hmem, hm]
      exact Bool.false_ne_true
    rw [if_neg hnary, hsingle, mem_singleton, hmem]
    simp

/-- The loop ends without a variable to process. -/
theorem resolveLoop_spec {links : List (Link A)}
    (hvars : chain.KnowsVars links) (horder : PropagatesInOrder model [] links)
    (h : Resolving model links state) :
    (chain.resolveLoop links.reverse state).1 = ∅ ∧
      Resolving model [] (chain.resolveLoop links.reverse state) ∧
      ∀ γ, (∀ link ∈ links, link.mClause.eval γ = true) → StateHolds γ state →
        StateHolds γ (chain.resolveLoop links.reverse state) := by
  induction links using List.reverseRecOn generalizing state with
  | nil =>
    have hempty : state.1 = ∅ := by
      refine Finset.eq_empty_of_forall_notMem fun l hl => ?_
      obtain ⟨f, -, hf⟩ := h.toProcess l hl
      cases hf
    exact ⟨hempty, h, fun γ _ hstate => hstate⟩
  | append_singleton links link ih =>
    obtain ⟨hlinks, hlink, -⟩ := propagatesInOrder_append.mp horder
    rw [nil_append] at hlink
    have himpl : impliedLiterals (links ++ [link]) =
        impliedLiterals links ++ link.impliedTseitinLiteral.toList := by
      rw [impliedLiterals, filterMap_append]
      cases hm : link.impliedTseitinLiteral <;> simp [impliedLiterals, hm]
    have hvars' : chain.KnowsVars links := by
      refine ⟨fun f hf => hvars.implied f ?_, hvars.tseitin⟩
      rw [himpl]
      exact mem_append_left _ hf
    -- the clause is passed over, since it implies nothing about the variables to process
    have hpass : (∀ l ∈ state.1, negated l ∉ link.impliedTseitinLiteral.toList) →
        (chain.resolveLoop links.reverse state).1 = ∅ ∧
          Resolving model [] (chain.resolveLoop links.reverse state) ∧
          ∀ γ, (∀ link' ∈ links ++ [link], link'.mClause.eval γ = true) → StateHolds γ state →
            StateHolds γ (chain.resolveLoop links.reverse state) := by
      intro hnot
      have hstate : Resolving model links state := by
        refine ⟨fun l hl => ?_, h.result⟩
        obtain ⟨f, hf, hmem⟩ := h.toProcess l hl
        rw [himpl, mem_append] at hmem
        exact ⟨f, hf, hmem.resolve_right (hnot l hl)⟩
      obtain ⟨hempty, hres, hsound⟩ := ih hvars' hlinks hstate
      exact ⟨hempty, hres, fun γ hγ => hsound γ fun link' hl => hγ link' (mem_append_left _ hl)⟩
    rw [reverse_concat, ClauseChain.resolveLoop]
    cases hm : link.impliedTseitinLiteral with
    | none =>
      rw [hm] at hpass
      exact hpass fun l _ => not_mem_nil
    | some m =>
      obtain ⟨⟨f, hf⟩, hmem, hothers⟩ := hlink.propagating m hm
      have hneg : negated m = .atom (.tseitin f) := by rw [hf]; rfl
      simp only
      by_cases hproc : negated m ∈ state.1
      · rw [if_pos hproc]
        set lits := if link.mClause.isNary then link.mClause.subformulas.filter (· ≠ m) else []
          with hlits
        have hmemlits : ∀ l, l ∈ lits ↔ l ∈ disjuncts link.mClause ∧ l ≠ m := mem_others hf hmem
        have herased : Resolving model links (state.1.erase (negated m), state.2) := by
          refine ⟨fun l hl => ?_, h.result⟩
          obtain ⟨hne, hl⟩ := Finset.mem_erase.mp hl
          obtain ⟨g, rfl, hmem'⟩ := h.toProcess l hl
          rw [himpl, hm, mem_append, Option.toList_some, mem_singleton, hf] at hmem'
          refine ⟨g, rfl, hmem'.resolve_right fun heq => hne ?_⟩
          rw [hneg]
          exact congrArg negated heq
        have hstate := herased.process hvars' fun l hl =>
          hothers l ((hmemlits l).mp hl).1 ((hmemlits l).mp hl).2
        -- the resolvent
        have hsound : ∀ γ, link.mClause.eval γ = true → StateHolds γ state →
            StateHolds γ (chain.process lits (state.1.erase (negated m), state.2)) := by
          intro γ hcl hholds
          rw [stateHolds_process]
          by_cases hvar : (negated m).eval γ = true
          · right
            rw [eval_eq_any, any_eq_true] at hcl
            obtain ⟨l, hl, hval⟩ := hcl
            refine ⟨l, (hmemlits l).mpr ⟨hl, ?_⟩, hval⟩
            rintro rfl
            rw [eval_negated, hval] at hvar
            cases hvar
          · left
            refine hholds.imp_left fun ⟨l, hl, hval⟩ => ⟨l, Finset.mem_erase.mpr ⟨?_, hl⟩, hval⟩
            rintro rfl
            exact hvar hval
        by_cases hempty : (chain.process lits (state.1.erase (negated m), state.2)).1 = ∅
        · rw [if_pos hempty]
          refine ⟨hempty, ⟨fun l hl => ?_, hstate.result⟩, fun γ hγ => hsound γ (hγ link (by simp))⟩
          rw [hempty] at hl
          exact absurd hl (Finset.notMem_empty l)
        · rw [if_neg hempty]
          obtain ⟨hdone, hres, hrest⟩ := ih hvars' hlinks hstate
          refine ⟨hdone, hres, fun γ hγ hholds => hrest γ (fun link' hl => hγ link' ?_) ?_⟩
          · exact mem_append_left _ hl
          · exact hsound γ (hγ link (by simp)) hholds
      · rw [if_neg hproc]
        rw [hm] at hpass
        refine hpass fun l hl hmem' => hproc ?_
        obtain ⟨g, rfl, -⟩ := h.toProcess l hl
        rw [← mem_singleton.mp hmem']
        exact hl

end Resolution

/-! ## The clauses of a formula -/

/-- The literals that stand for a formula: constants, its atoms and Tseitin variables of formulas that
are not larger.  The clauses imply that the variable of a false formula is false. -/
inductive IsLiteral (model : A → Bool) (size : ℕ) (links : List (Link A)) : ClauseT A → Prop where
  | const (b : Bool) : IsLiteral model size links (.const b)
  | atom (a : A) : IsLiteral model size links (.atom (.atom a))
  | tseitin (f : Formula A) : sizeOf f ≤ size →
      (f.eval model = false → negated (.atom (.tseitin f)) ∈ impliedLiterals links) →
      IsLiteral model size links (.atom (.tseitin f))

namespace IsLiteral

variable {model : A → Bool} {size size' : ℕ} {links links' : List (Link A)} {l : ClauseT A}

theorem mono (h : IsLiteral model size links l) (hsize : size ≤ size')
    (hsub : impliedLiterals links ⊆ impliedLiterals links') : IsLiteral model size' links' l := by
  cases h with
  | const b => exact .const b
  | atom a => exact .atom a
  | tseitin f hf himpl => exact .tseitin f (hf.trans hsize) fun hfalse => hsub (himpl hfalse)

theorem isNary_eq_false (h : IsLiteral model size links l) : l.isNary = false := by
  cases h <;> rfl

theorem falsified (h : IsLiteral model size links l) (hfalse : l.eval (extend model) = false) :
    Falsified model (impliedLiterals links) l := by
  cases h with
  | const b =>
    rw [Formula.eval_const] at hfalse
    rw [hfalse]
    exact .const
  | atom a => exact .atom (by simpa [extend] using hfalse)
  | tseitin f _ himpl => exact .tseitin (himpl (by simpa [extend] using hfalse))

/-- The variable of a larger formula may have any value. -/
theorem eval_update [DecidableEq A] (h : IsLiteral model size links l)
    (hsize : size < sizeOf f) (b : Bool) :
    l.eval (Function.update (extend model) (.tseitin f) b) = l.eval (extend model) := by
  cases h with
  | const b => rw [Formula.eval_const, Formula.eval_const]
  | atom a => simp [Function.update]
  | tseitin g hg _ =>
    have hne : g ≠ f := fun heq => (hg.trans_lt hsize).ne (congrArg sizeOf heq)
    simp [Function.update, hne]

end IsLiteral

section Transform

variable [DecidableEq A] {pool : ClausePool A} {model : A → Bool} {withEquivalences : Bool}
  {chain chain' chain'' : ClauseChain A} {links links' : List (Link A)}

/-- A chain is continued by some clauses. -/
structure ClauseChain.Extends (chain chain' : ClauseChain A) (links : List (Link A)) : Prop where
  links : chain'.mClauseChain = chain.mClauseChain ++ links
  vars : chain.mTseitinVars ⊆ chain'.mTseitinVars
  tseitin : (∀ l ∈ chain.mTseitinVars, ∃ f, l = .atom (.tseitin f)) →
    ∀ l ∈ chain'.mTseitinVars, ∃ f, l = .atom (.tseitin f)

omit [DecidableEq A] in
theorem ClauseChain.Extends.refl (chain : ClauseChain A) : chain.Extends chain [] :=
  ⟨(append_nil _).symm, Finset.Subset.refl _, id⟩

omit [DecidableEq A] in
theorem ClauseChain.Extends.trans (h : chain.Extends chain' links) (h' : chain'.Extends chain'' links') :
    chain.Extends chain'' (links ++ links') where
  links := by rw [h'.links, h.links, append_assoc]
  vars := h.vars.trans h'.vars
  tseitin htseitin := h'.tseitin (h.tseitin htseitin)

/-- What clauses appended by the transformation have in common. -/
structure AppendedLinks (model : A → Bool) (vars : Finset (ClauseT A)) (links : List (Link A)) :
    Prop where
  order : PropagatesInOrder model [] links
  not_conflicting : ∀ link ∈ links, link.isConflicting = false
  implied : ∀ m ∈ impliedLiterals links,
    ∃ f, m = negated (.atom (.tseitin f)) ∧ .atom (.tseitin f) ∈ vars

omit [DecidableEq A] in
theorem impliedLiterals_append (links links' : List (Link A)) :
    impliedLiterals (links ++ links') = impliedLiterals links ++ impliedLiterals links' :=
  filterMap_append

omit [DecidableEq A] in
theorem AppendedLinks.append {vars vars' : Finset (ClauseT A)} (h : AppendedLinks model vars links)
    (hvars : vars ⊆ vars') (h' : AppendedLinks model vars' links') :
    AppendedLinks model vars' (links ++ links') where
  order := h.order.append h'.order
  not_conflicting link hlink :=
    (mem_append.mp hlink).elim (h.not_conflicting link) (h'.not_conflicting link)
  implied m hm := by
    rw [impliedLiterals_append, mem_append] at hm
    rcases hm with hm | hm
    · obtain ⟨f, hf, hmem⟩ := h.implied m hm
      exact ⟨f, hf, hvars hmem⟩
    · exact h'.implied m hm

/-- An optional clause may be appended. -/
theorem AppendedLinks.optional {vars : Finset (ClauseT A)} (h : AppendedLinks model vars links)
    (clause : ClauseT A) : AppendedLinks model vars (links ++ [⟨clause, none⟩]) := by
  refine h.append (Finset.Subset.refl _) ⟨⟨⟨fun m hm => ?_, fun hconf => ?_⟩, trivial⟩, ?_, ?_⟩
  · cases hm
  · cases hconf
  · rintro link hlink
    rw [mem_singleton.mp hlink]
    rfl
  · rintro m ⟨⟩

/-- The literals `lits` stand for the formulas `fs`, with the clauses `links`. -/
structure Encodes (model : A → Bool) (size : ℕ) (fs : List (Formula A)) (lits : List (ClauseT A))
    (links : List (Link A)) : Prop where
  eval : ∀ β, lits.map (Formula.eval (extend β)) = fs.map (Formula.eval β)
  literals : ∀ lit ∈ lits, ∀ l ∈ disjuncts lit, IsLiteral model size links l

variable {fs : List (Formula A)} {size : ℕ}

omit [DecidableEq A] in
theorem Encodes.eval_eq {lit : ClauseT A} (h : Encodes model size [f] [lit] links) (β : A → Bool) :
    lit.eval (extend β) = f.eval β := by
  have heval := h.eval β
  rwa [map_singleton, map_singleton, singleton_inj] at heval

omit [DecidableEq A] in
theorem Encodes.mono {size' : ℕ} (h : Encodes model size fs lits links) (hsize : size ≤ size')
    (hsub : impliedLiterals links ⊆ impliedLiterals links') : Encodes model size' fs lits links' where
  eval := h.eval
  literals lit hlit l hl := (h.literals lit hlit l hl).mono hsize hsub

omit [DecidableEq A] in
theorem Encodes.append {fs' : List (Formula A)} {lits' : List (ClauseT A)}
    (h : Encodes model size fs lits links) (h' : Encodes model size fs' lits' links) :
    Encodes model size (fs ++ fs') (lits ++ lits') links where
  eval β := by rw [map_append, map_append, h.eval, h'.eval]
  literals lit hlit := (mem_append.mp hlit).elim (h.literals lit) (h'.literals lit)

/-- What the transformation of a formula guarantees. -/
structure Transforms (model : A → Bool) (f : Formula A) (chain : ClauseChain A)
    (result : ClauseT A × ClauseChain A) (links : List (Link A)) : Prop where
  ext : chain.Extends result.2 links
  appended : AppendedLinks model result.2.mTseitinVars links
  clauses : ∀ β, ∀ link ∈ links, link.mClause.eval (extend β) = true
  encodes : Encodes model (sizeOf f) [f] [result.1] links

omit [DecidableEq A] in
theorem sizeOf_lt_app (op : Connective) (hf : f ∈ fs) : sizeOf f < sizeOf (Formula.app op fs) := by
  have := sizeOf_lt_of_mem hf
  simp only [Formula.app.sizeOf_spec]
  omega

omit [DecidableEq A] in
/-- Constants and atoms stand for themselves. -/
theorem Transforms.of_literal (chain : ClauseChain A) {lit : ClauseT A}
    (heval : ∀ β, lit.eval (extend β) = f.eval β) (hlit : disjuncts lit = [lit])
    (h : IsLiteral model (sizeOf f) [] lit) : Transforms model f chain (lit, chain) [] where
  ext := .refl chain
  appended := ⟨trivial, nofun, nofun⟩
  clauses _ := nofun
  encodes :=
    { eval := fun β => by rw [map_singleton, map_singleton, heval]
      literals := fun lit' hlit' l hl => by
        obtain rfl := mem_singleton.mp hlit'
        rw [hlit] at hl
        rwa [mem_singleton.mp hl] }

theorem ne_true_of_false (pool : ClausePool A) {γ : ClauseAtom A → Bool} {fs : List (ClauseT A)}
    (h : ∀ f ∈ fs, f.eval γ = false) : pool.create fs ≠ .const true := by
  intro htrue
  have hval := pool.eval_create γ fs
  rw [htrue, Formula.eval_const] at hval
  obtain ⟨f, hf, hf'⟩ := any_eq_true.mp hval.symm
  rw [h f hf] at hf'
  cases hf'

/-- The clause that passes a false subformula on to its conjunction. -/
theorem propagates_conjunct {F : Formula A} {lit : ClauseT A}
    (h : Encodes model (sizeOf f) [f] [lit] links) (hsize : sizeOf f < sizeOf F)
    (hfalse : f.eval model = false) :
    Link.Propagates model (impliedLiterals links)
      ⟨pool.create [lit, negated (.atom (.tseitin F))], some (negated (.atom (.tseitin F)))⟩ := by
  have hlits := h.literals lit mem_cons_self
  have hlit : lit.eval (extend model) = false := (h.eval_eq model).trans hfalse
  have hall : ∀ l ∈ disjuncts lit, l.eval (extend model) = false := by
    intro l hl
    rw [eval_eq_any, any_eq_false] at hlit
    simpa using hlit l hl
  have hne : pool.create [lit, negated (.atom (.tseitin F))] ≠ .const true := by
    apply ne_true_of_false pool (γ := Function.update (extend model) (.tseitin F) true)
    intro g hg
    rcases mem_pair.mp hg with rfl | rfl
    · rw [eval_eq_any, any_eq_false]
      intro l hl
      rw [(hlits l hl).eval_update hsize, hall l hl]
      exact Bool.false_ne_true
    · rw [eval_negated, Formula.eval_atom, Function.update_self]
      rfl
  have hdisj := (pool.disjuncts_create [lit, negated (.atom (.tseitin F))] (by
    intro g hg l hl
    rcases mem_pair.mp hg with rfl | rfl
    · exact (hlits l hl).isNary_eq_false
    · rw [mem_singleton.mp hl]
      rfl)).resolve_left hne
  refine ⟨fun m hm => ?_, fun hconf => ?_⟩
  · obtain rfl : negated (.atom (.tseitin F)) = m := Option.some.inj hm
    refine ⟨⟨F, rfl⟩, ?_, fun l hl hlm => ?_⟩
    · have hne' : negated (.atom (.tseitin F)) ≠ (.const false : ClauseT A) := nofun
      exact (hdisj _ hne').mpr ⟨_, mem_cons_of_mem _ mem_cons_self, mem_cons_self⟩
    · by_cases hconst : l = .const false
      · rw [hconst]
        exact .const
      · obtain ⟨g, hg, hlg⟩ := (hdisj l hconst).mp hl
        rcases mem_pair.mp hg with rfl | rfl
        · exact (hlits l hlg).falsified (hall l hlg)
        · exact absurd (mem_singleton.mp hlg) hlm
  · cases hconf

/-- The loop over the subformulas of a disjunction. -/
theorem transformDisjuncts_spec (hsize : ∀ f ∈ fs, sizeOf f ≤ size)
    (ih : ∀ f ∈ fs, ∀ chain, ∃ links,
      Transforms model f chain (transform pool model withEquivalences f chain) links)
    (chain : ClauseChain A) : ∃ links,
      chain.Extends (transformDisjuncts pool model withEquivalences fs chain).2 links ∧
      AppendedLinks model (transformDisjuncts pool model withEquivalences fs chain).2.mTseitinVars links ∧
      (∀ β, ∀ link ∈ links, link.mClause.eval (extend β) = true) ∧
      Encodes model size fs (transformDisjuncts pool model withEquivalences fs chain).1 links := by
  induction fs generalizing chain with
  | nil =>
    refine ⟨[], .refl chain, ⟨trivial, nofun, nofun⟩, fun β => nofun, fun β => rfl, nofun⟩
  | cons f fs ihfs =>
    obtain ⟨links, h⟩ := ih f mem_cons_self chain
    obtain ⟨links', hext, happ, hcls, hencodes⟩ :=
      ihfs (fun g hg => hsize g (mem_cons_of_mem f hg))
        (fun g hg => ih g (mem_cons_of_mem f hg)) (transform pool model withEquivalences f chain).2
    rw [transformDisjuncts]
    refine ⟨links ++ links', h.ext.trans hext, h.appended.append hext.vars happ, ?_, ?_⟩
    · intro β link hlink
      exact (mem_append.mp hlink).elim (h.clauses β link) (hcls β link)
    · refine Encodes.append (h.encodes.mono (hsize f mem_cons_self) ?_) (hencodes.mono le_rfl ?_)
      · rw [impliedLiterals_append]
        exact subset_append_left _ _
      · rw [impliedLiterals_append]
        exact subset_append_right _ _

/-- The loop over the subformulas of the conjunction `F`. -/
theorem transformConjuncts_spec {F : Formula A} (hsize : ∀ f ∈ fs, sizeOf f < sizeOf F)
    (ih : ∀ f ∈ fs, ∀ chain, ∃ links,
      Transforms model f chain (transform pool model withEquivalences f chain) links)
    (chain : ClauseChain A) (hvar : .atom (.tseitin F) ∈ chain.mTseitinVars) : ∃ links,
      chain.Extends (transformConjuncts pool model withEquivalences (.atom (.tseitin F)) fs chain).2
        links ∧
      AppendedLinks model (transformConjuncts pool model withEquivalences (.atom (.tseitin F)) fs
        chain).2.mTseitinVars links ∧ (∀ β, (F.eval β = true → ∀ f ∈ fs, f.eval β = true) →
        ∀ link ∈ links, link.mClause.eval (extend β) = true) ∧
      (∀ β, (transformConjuncts pool model withEquivalences (.atom (.tseitin F)) fs chain).1.map
        (Formula.eval (extend β)) = fs.map (Formula.eval β)) ∧
      ((∃ f ∈ fs, f.eval model = false) → negated (.atom (.tseitin F)) ∈ impliedLiterals links) := by
  induction fs generalizing chain with
  | nil =>
    refine ⟨[], .refl chain, ⟨trivial, nofun, nofun⟩, fun β _ => nofun, fun β => rfl, ?_⟩
    rintro ⟨f, hf, -⟩
    cases hf
  | cons f fs ihfs =>
    obtain ⟨links, h⟩ := ih f mem_cons_self chain
    rw [transformConjuncts]
    generalize transform pool model withEquivalences f chain = result at h
    obtain ⟨lit, chain₁⟩ := result
    simp only at h ⊢
    have hlt : sizeOf f < sizeOf F := hsize f mem_cons_self
    have hvar₁ : .atom (.tseitin F) ∈ chain₁.mTseitinVars := h.ext.vars hvar
    have heval := h.encodes.eval_eq
    -- the clause of this subformula
    obtain ⟨link, hlink, hext, hone, himpl⟩ : ∃ link : Link A,
        link.mClause = pool.create [lit, negated (.atom (.tseitin F))] ∧
        chain.Extends (if f.eval model = false
          then chain₁.appendPropagating (pool.create [lit, negated (.atom (.tseitin F))])
            (negated (.atom (.tseitin F)))
          else chain₁.appendOptional (pool.create [lit, negated (.atom (.tseitin F))]))
          (links ++ [link]) ∧
        AppendedLinks model chain₁.mTseitinVars (links ++ [link]) ∧
        (f.eval model = false → negated (.atom (.tseitin F)) ∈ impliedLiterals [link]) := by
      by_cases hfalse : f.eval model = false
      · refine ⟨⟨pool.create [lit, negated (.atom (.tseitin F))],
          some (negated (.atom (.tseitin F)))⟩, rfl, ?_, ⟨?_, ?_, ?_⟩, fun _ => mem_cons_self⟩
        · rw [if_pos hfalse]
          refine h.ext.trans ⟨rfl, Finset.Subset.refl _, id⟩
        · refine propagatesInOrder_append.mpr ⟨h.appended.order, ?_, trivial⟩
          exact propagates_conjunct h.encodes hlt hfalse
        · intro link hlink
          rcases mem_append.mp hlink with hlink | hlink
          · exact h.appended.not_conflicting link hlink
          · rw [mem_singleton.mp hlink]
            rfl
        · intro m hm
          rw [impliedLiterals_append, mem_append] at hm
          rcases hm with hm | hm
          · exact h.appended.implied m hm
          · exact ⟨F, mem_singleton.mp hm, hvar₁⟩
      · refine ⟨⟨pool.create [lit, negated (.atom (.tseitin F))], none⟩, rfl, ?_,
          h.appended.optional _, fun hf => absurd hf hfalse⟩
        rw [if_neg hfalse]
        exact h.ext.trans ⟨rfl, Finset.Subset.refl _, id⟩
    generalize hchain₂ : (if f.eval model = false
      then chain₁.appendPropagating (pool.create [lit, negated (.atom (.tseitin F))])
        (negated (.atom (.tseitin F)))
      else chain₁.appendOptional (pool.create [lit, negated (.atom (.tseitin F))])) = chain₂ at hext
    have hvars₂ : chain₁.mTseitinVars = chain₂.mTseitinVars := by
      rw [← hchain₂]
      split_ifs <;> rfl
    obtain ⟨links', hext', happ, hcls, hlits, hrest⟩ :=
      ihfs (fun g hg => hsize g (mem_cons_of_mem f hg))
        (fun g hg => ih g (mem_cons_of_mem f hg)) chain₂ (hvars₂ ▸ hvar₁)
    refine ⟨links ++ [link] ++ links', hext.trans hext', ?_, ?_, ?_, ?_⟩
    · exact hone.append (hvars₂ ▸ hext'.vars) happ
    · intro β hF link' hlink'
      rcases mem_append.mp hlink' with hlink' | hlink'
      · rcases mem_append.mp hlink' with hlink' | hlink'
        · exact h.clauses β link' hlink'
        · rw [mem_singleton.mp hlink', hlink, pool.eval_create]
          simp only [any_cons, any_nil, Bool.or_false, eval_negated, Formula.eval_atom,
            extend, heval]
          cases hval : F.eval β with
          | false => simp
          | true => simp [hF hval f mem_cons_self]
      · exact hcls β (fun hval g hg => hF hval g (mem_cons_of_mem f hg)) link' hlink'
    · intro β
      rw [map_cons, map_cons, hlits, heval]
    · rintro ⟨g, hg, hfalse⟩
      rw [impliedLiterals_append, impliedLiterals_append, mem_append, mem_append]
      rcases mem_cons.mp hg with rfl | hg
      · exact .inl (.inr (himpl hfalse))
      · exact .inr (hrest ⟨g, hg, hfalse⟩)

/-- The transformation appends clauses that define the Tseitin variables, in an order in which they
propagate. -/
theorem transform_spec (pool : ClausePool A) (model : A → Bool) (hf : IsAndOr f)
    (chain : ClauseChain A) : ∃ links,
    Transforms model f chain (transform pool model withEquivalences f chain) links := by
  induction hf generalizing chain with
  | const b =>
    rw [transform]
    exact ⟨[], .of_literal chain (fun β => by simp) rfl (.const b)⟩
  | atom a =>
    rw [transform]
    exact ⟨[], .of_literal chain (fun β => by simp [extend]) rfl (.atom a)⟩
  | or fs _ ih =>
    obtain ⟨links, hext, happ, hcls, hencodes⟩ :=
      transformDisjuncts_spec (fun _ hf => (sizeOf_lt_app .or hf).le) ih chain
    rw [transform]
    generalize transformDisjuncts pool model withEquivalences fs chain = result at *
    obtain ⟨lits, chain'⟩ := result
    refine ⟨links, hext, happ, hcls, fun β => ?_, fun lit hlit l hl => ?_⟩
    · have hany := congrArg (List.any · id) (hencodes.eval β)
      simp only [any_map, Function.id_comp] at hany
      rw [map_singleton, map_singleton, pool.eval_create, hany]
      simp [any_map]
    · obtain rfl := mem_singleton.mp hlit
      rcases pool.disjuncts_create lits fun g hg l hl =>
        (hencodes.literals g hg l hl).isNary_eq_false with htrue | hdisj
      · have hl : l ∈ disjuncts (pool.create lits) := hl
        rw [htrue] at hl
        rw [mem_singleton.mp hl]
        exact .const true
      · by_cases hconst : l = .const false
        · rw [hconst]
          exact .const false
        · obtain ⟨g, hg, hlg⟩ := (hdisj l hconst).mp hl
          exact hencodes.literals g hg l hlg
  | and fs _ ih =>
    obtain ⟨links, hext, happ, hcls, hlits, himpl⟩ :=
      transformConjuncts_spec (fun _ => sizeOf_lt_app .and) ih
        (chain.createTseitinVar (.app .and fs)).2 (Finset.mem_insert_self _ _)
    have hcrea : chain.Extends (chain.createTseitinVar (.app .and fs)).2 [] := by
      refine ⟨(append_nil _).symm, Finset.subset_insert _ _, fun hvars l hl => ?_⟩
      rcases Finset.mem_insert.mp hl with rfl | hl
      · exact ⟨_, rfl⟩
      · exact hvars l hl
    have heval : ∀ β, (Formula.app .and fs).eval β = true → ∀ f ∈ fs, f.eval β = true := by
      intro β hval
      simpa using hval
    have hfalse : (Formula.app .and fs).eval model = false → ∃ f ∈ fs, f.eval model = false := by
      intro hval
      simpa using hval
    rw [transform]
    have hvar : (chain.createTseitinVar (.app .and fs)).1 = .atom (.tseitin (.app .and fs)) := rfl
    simp only [hvar]
    generalize (chain.createTseitinVar (.app .and fs)).2 = chain₁ at *
    generalize transformConjuncts pool model withEquivalences (.atom (.tseitin (.app .and fs))) fs
      chain₁ = result at *
    obtain ⟨lits, chain₂⟩ := result
    have hvalue : ∀ β, (Formula.atom (.tseitin (.app .and fs)) : ClauseT A).eval (extend β) =
        (Formula.app .and fs).eval β := fun β => Formula.eval_atom _ _
    cases withEquivalences with
    | false =>
      refine ⟨links, hcrea.trans hext, happ, fun β => hcls β (heval β), fun β => ?_, ?_⟩
      · rw [map_singleton, map_singleton, hvalue]
      · intro lit hlit l hl
        obtain rfl := mem_singleton.mp hlit
        rw [mem_singleton.mp hl]
        exact .tseitin _ le_rfl fun hval => himpl (hfalse hval)
    | true =>
      have hoptional : chain₂.Extends (chain₂.appendOptional (pool.create
          (lits.map negated ++ [.atom (.tseitin (.app .and fs))])))
          [⟨pool.create (lits.map negated ++ [.atom (.tseitin (.app .and fs))]), none⟩] :=
        ⟨rfl, Finset.Subset.refl _, id⟩
      refine ⟨links ++ _, hcrea.trans (hext.trans hoptional), happ.optional _,
        fun β link hlink => ?_, fun β => ?_, ?_⟩
      · rcases mem_append.mp hlink with hlink | hlink
        · exact hcls β (heval β) link hlink
        · rw [mem_singleton.mp hlink, pool.eval_create, any_append, any_map]
          have hany : lits.any (Formula.eval (extend β) ∘ negated) = fs.any fun f => !f.eval β := by
            have hnot := congrArg (List.any · Bool.not) (hlits β)
            simpa [any_map, Function.comp_def, eval_negated] using hnot
          rw [hany]
          simp [extend, Bool.or_eq_true, ← Bool.not_eq_true, or_iff_not_imp_left]
      · rw [map_singleton, map_singleton, hvalue]
      · intro lit hlit l hl
        obtain rfl := mem_singleton.mp hlit
        rw [mem_singleton.mp hl]
        refine .tseitin _ le_rfl fun hval => ?_
        rw [impliedLiterals_append]
        exact mem_append_left _ (himpl (hfalse hval))

omit [DecidableEq A] in
theorem mentions_iff_disjuncts (x : ClauseAtom A) (f : ClauseT A) :
    f.Mentions x ↔ ∃ l ∈ disjuncts f, l.Mentions x := by
  rw [disjuncts.eq_def]
  split
  · exact Formula.mentions_app x _ _
  · simp

omit [DecidableEq A] in
/-- A clause of constants and atoms of the formula mentions no Tseitin variable. -/
theorem not_mentions_create (pool : ClausePool A)
    (h : ∀ l ∈ lits, l = .const false ∨ ∃ a, l = .atom (.atom a) ∧ model a = false) (f : Formula A) :
    ¬ (pool.create lits).Mentions (.tseitin f) := by
  have hdisj : ∀ l ∈ lits, disjuncts l = [l] := by
    intro l hl
    rcases h l hl with rfl | ⟨a, rfl, -⟩ <;> rfl
  have hnary : ∀ g ∈ lits, ∀ l ∈ disjuncts g, l.isNary = false := by
    intro g hg l hl
    rw [hdisj g hg, mem_singleton] at hl
    rcases h g hg with rfl | ⟨a, rfl, -⟩ <;> rw [hl] <;> rfl
  rcases pool.disjuncts_create lits hnary with htrue | hcrea
  · rw [htrue]
    exact Formula.mentions_const _ _
  · rw [mentions_iff_disjuncts]
    rintro ⟨l, hl, hment⟩
    by_cases hconst : l = .const false
    · rw [hconst] at hment
      exact Formula.mentions_const _ _ hment
    · obtain ⟨g, hg, hlg⟩ := (hcrea l hconst).mp hl
      rw [hdisj g hg, mem_singleton] at hlg
      rcases h g hg with rfl | ⟨a, rfl, -⟩
      · exact hconst hlg
      · rw [hlg, Formula.mentions_atom] at hment
        cases hment

/-- The chain of a formula that is false under the model.  Its clauses but the last hold when the
Tseitin variables have the values of their formulas, and the last one then says what the formula says.
In their order the clauses propagate until the last one is false.  Resolution leaves a clause without
Tseitin variables that follows from the chain and is false, too. -/
theorem implicationChain_correct (pool : ClausePool A) (model : A → Bool) (withEquivalences : Bool)
    (f : Formula A) (hf : IsAndOr f) (hfalse : f.eval model = false) : ∃ links conflicting clause,
      (transformToImplicationChain pool model withEquivalences f).mClauseChain =
        links ++ [⟨conflicting, some (.const false)⟩] ∧
      (∀ link ∈ links, link.isConflicting = false) ∧
      (∀ β, (∀ link ∈ links, link.mClause.eval (extend β) = true) ∧
        conflicting.eval (extend β) = f.eval β) ∧
      PropagatesInOrder model [] (transformToImplicationChain pool model withEquivalences f).mClauseChain ∧
      (transformToImplicationChain pool model withEquivalences f).resolve pool = some clause ∧
      (∀ g, ¬ clause.Mentions (.tseitin g)) ∧
      (∀ γ, (∀ link ∈ (transformToImplicationChain pool model withEquivalences f).mClauseChain,
        link.mClause.eval γ = true) → clause.eval γ = true) ∧
      clause.eval (extend model) = false := by
  obtain ⟨links, h⟩ := transform_spec pool model hf .empty
  rw [transformToImplicationChain]
  generalize transform pool model withEquivalences f .empty = result at h
  obtain ⟨lit, chain⟩ := result
  simp only at h ⊢
  have hlit := h.encodes.eval_eq
  have hlits := h.encodes.literals lit mem_cons_self
  have hfalsified : ∀ l ∈ disjuncts lit, Falsified model (impliedLiterals links) l := by
    intro l hl
    refine (hlits l hl).falsified ?_
    have hval := (hlit model).trans hfalse
    rw [eval_eq_any, any_eq_false] at hval
    simpa using hval l hl
  have hchain : (chain.appendConflicting lit).mClauseChain = links ++ [⟨lit, some (.const false)⟩] := by
    rw [ClauseChain.appendConflicting, h.ext.links]
    rfl
  have horder : PropagatesInOrder model [] (links ++ [⟨lit, some (.const false)⟩]) := by
    refine propagatesInOrder_append.mpr ⟨h.appended.order, ⟨?_, fun _ => hfalsified⟩, trivial⟩
    rintro m ⟨⟩
  -- the literals the resolution starts with
  have hstart : (if lit.isNary then lit.subformulas else [lit]) = disjuncts lit := by
    by_cases hor : ∃ fs, lit = .app .or fs
    · obtain ⟨fs, rfl⟩ := hor
      rfl
    · have hsingle := disjuncts_eq_singleton hor
      have hnary := (hlits lit (by rw [hsingle]; exact mem_cons_self)).isNary_eq_false
      rw [hsingle, hnary, if_neg Bool.false_ne_true]
  have hvars : (chain.appendConflicting lit).KnowsVars links := by
    refine ⟨fun g hg => ?_, fun l hl => ?_⟩
    · obtain ⟨g', hg', hmem⟩ := h.appended.implied _ hg
      obtain rfl : g = g' := by injection congrArg negated hg' with h; injection h
      exact decide_eq_true hmem
    · exact h.ext.tseitin nofun l (of_decide_eq_true hl)
  have hinit : Resolving model links ((∅, []) : Finset (ClauseT A) × List (ClauseT A)) :=
    ⟨fun l hl => absurd hl (Finset.notMem_empty l), fun l hl => absurd hl not_mem_nil⟩
  obtain ⟨hempty, hres, hsound⟩ :=
    resolveLoop_spec hvars h.appended.order (hinit.process hvars hfalsified)
  have hresol : (chain.appendConflicting lit).resolve pool = some (pool.create
      ((chain.appendConflicting lit).resolveLoop links.reverse
        ((chain.appendConflicting lit).process (disjuncts lit) (∅, []))).2) := by
    rw [ClauseChain.resolve, hchain, reverse_concat]
    simp only [hstart]
  refine ⟨links, lit, _, hchain, h.appended.not_conflicting, fun β => ⟨h.clauses β, hlit β⟩,
    hchain ▸ horder, hresol, not_mentions_create pool hres.result, fun γ hγ => ?_, ?_⟩
  · rw [hchain] at hγ
    have hlast : lit.eval γ = true :=
      hγ ⟨lit, some (.const false)⟩ (mem_append_right _ mem_cons_self)
    rw [eval_eq_any, any_eq_true] at hlast
    have hholds := hsound γ (fun link hl => hγ link (mem_append_left _ hl))
      (stateHolds_process.mpr (.inr hlast))
    rw [StateHolds, hempty] at hholds
    rw [pool.eval_create, any_eq_true]
    exact hholds.resolve_left fun ⟨l, hl, _⟩ => Finset.notMem_empty l hl
  · rw [pool.eval_create, any_eq_false]
    intro l hl
    rcases hres.result l hl with rfl | ⟨a, rfl, ha⟩
    · simp
    · simp [extend, ha]

/-! ### A nested formula -/

/-- The constructor that joins nested disjunctions, drops `FALSE` and repetitions, and recognises `TRUE`
and complementary literals. -/
def flatten (fs : List (ClauseT A)) : ClauseT A :=
  let lits := ((fs.flatMap disjuncts).filter (· ≠ .const false)).dedup
  if .const true ∈ lits ∨ ∃ l ∈ lits, negated l ∈ lits then .const true
  else match lits with
    | [] => .const false
    | [l] => l
    | lits => .app .or lits

theorem mem_filter_disjuncts (fs : List (ClauseT A)) (l : ClauseT A) :
    l ∈ ((fs.flatMap disjuncts).filter (· ≠ .const false)).dedup ↔
      (∃ f ∈ fs, l ∈ disjuncts f) ∧ l ≠ .const false := by
  rw [mem_dedup, mem_filter, mem_flatMap, decide_eq_true_eq]

theorem eval_flatten (γ : ClauseAtom A → Bool) (fs : List (ClauseT A)) :
    (flatten fs).eval γ = fs.any (Formula.eval γ) := by
  have hany : fs.any (Formula.eval γ) =
      ((fs.flatMap disjuncts).filter (· ≠ .const false)).dedup.any (Formula.eval γ) := by
    rw [Bool.eq_iff_iff, any_eq_true, any_eq_true]
    constructor
    · rintro ⟨f, hf, hval⟩
      rw [eval_eq_any, any_eq_true] at hval
      obtain ⟨l, hl, hval⟩ := hval
      refine ⟨l, (mem_filter_disjuncts fs l).mpr ⟨⟨f, hf, hl⟩, ?_⟩, hval⟩
      rintro rfl
      simp at hval
    · rintro ⟨l, hl, hval⟩
      obtain ⟨⟨f, hf, hlf⟩, -⟩ := (mem_filter_disjuncts fs l).mp hl
      refine ⟨f, hf, ?_⟩
      rw [eval_eq_any, any_eq_true]
      exact ⟨l, hlf, hval⟩
  rw [hany, flatten]
  generalize ((fs.flatMap disjuncts).filter (· ≠ .const false)).dedup = lits
  by_cases htaut : .const true ∈ lits ∨ ∃ l ∈ lits, negated l ∈ lits
  · rw [if_pos htaut, Formula.eval_const, eq_comm, any_eq_true]
    rcases htaut with htrue | ⟨l, hl, hnl⟩
    · exact ⟨_, htrue, Formula.eval_const _ _⟩
    · cases hval : l.eval γ with
      | true => exact ⟨l, hl, hval⟩
      | false => exact ⟨negated l, hnl, by rw [eval_negated, hval]; rfl⟩
  · rw [if_neg htaut]
    split
    · simp
    · simp
    · simp [any_map]

def ClausePool.flattening : ClausePool A where
  create := flatten
  eval_create := eval_flatten
  disjuncts_create fs hflat := by
    have hmem := mem_filter_disjuncts fs
    rw [flatten]
    generalize ((fs.flatMap disjuncts).filter (· ≠ .const false)).dedup = lits at hmem
    split_ifs with htaut
    · exact .inl rfl
    · right
      intro l hl
      have hiff : (∃ f ∈ fs, l ∈ disjuncts f) ↔ l ∈ lits := by rw [hmem, and_iff_left hl]
      rw [hiff]
      split
      · simp [disjuncts, hl]
      · next l' =>
        obtain ⟨⟨f, hf, hlf⟩, -⟩ := (hmem l').mp mem_cons_self
        rw [disjuncts_eq_singleton]
        rintro ⟨gs, rfl⟩
        cases hflat f hf _ hlf
      · rfl

end Transform

/-- `(0 ∨ (1 ∧ 2)) ∧ 3`, where the numbers are atoms. -/
def nestedFormula : Formula ℕ :=
  .app .and [.app .or [.atom 0, .app .and [.atom 1, .atom 2]], .atom 3]

/-- All atoms but the last are false. -/
theorem implicationChain_correct_nested :
    (transformToImplicationChain .flattening (fun a => a = 3) false nestedFormula).resolve .flattening =
      some (.app .or [.atom (.atom 0), .atom (.atom 2)]) ∧
    (Formula.app .or [.atom (.atom 0), .atom (.atom 2)] : ClauseT ℕ).eval
      (extend fun a => decide (a = 3)) = false := by
  have hresol : (transformToImplicationChain .flattening (fun a => a = 3) false
      nestedFormula).resolve .flattening = some (.app .or [.atom (.atom 0), .atom (.atom 2)]) := by
    decide +kernel
  obtain ⟨links, conflicting, clause, -, -, -, -, hcl, -, -, hfalse⟩ :=
    implicationChain_correct .flattening (fun a => decide (a = 3)) false nestedFormula (.and _ (by
        intro f hf
        rcases mem_pair.mp hf with rfl | rfl
        · refine .or _ fun g hg => ?_
          rcases mem_pair.mp hg with rfl | rfl
          · exact .atom 0
          · refine .and _ fun g hg => ?_
            rcases mem_pair.mp hg with rfl | rfl
            · exact .atom 1
            · exact .atom 2
        · exact .atom 3)) (by decide +kernel)
  rw [hresol] at hcl
  cases hcl
  exact ⟨hresol, hfalse⟩

end Smtrat.Chains
