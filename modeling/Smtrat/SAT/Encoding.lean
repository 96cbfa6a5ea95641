import Smtrat.Logic.Formula
import Smtrat.SAT.Literal

/-!
# The clauses of a connective

A formula that is received on its own becomes clauses over the literals of its arguments.  A formula
that occurs in another one is defined by clauses to be equivalent to a literal.
-/

namespace Smtrat.SAT

open PropFormula List

variable {α : Valuation} {ls : List Lit} {ts : Lit} {c : Clause}

/-- The number of arguments that a formula pool allows. -/
def hasArity : Connective → Nat → Bool
  | .not, n => n = 1
  | .implies, n => n = 2
  | .ite, n => n = 3
  | _, n => 2 ≤ n

/-- `addXorClauses`: the literals that are left, whether the number of negated ones so far is even,
and the clause so far. -/
def xorClauses : List Lit → Bool → Clause → List Clause
  | [], _, _ => []
  | [l], numOfNegatedLitsEven, clause => [clause ++ [if numOfNegatedLitsEven then l else l.neg]]
  | l :: k :: ls, numOfNegatedLitsEven, clause =>
    xorClauses (k :: ls) numOfNegatedLitsEven (clause ++ [l]) ++
      xorClauses (k :: ls) (!numOfNegatedLitsEven) (clause ++ [l.neg])

/-- Every literal implies the next one and is implied by it, unless a literal of `h` is true. -/
def iffClauses (h : Clause) : List Lit → List Clause
  | l :: k :: ls => ([l.neg, k] ++ h) :: ([l, k.neg] ++ h) :: iffClauses h (k :: ls)
  | _ => []

/-- The clauses of a formula that is received. -/
def topClauses : Connective → List Lit → List Clause
  | .or, ls => [ls]
  | .implies, [prem, con] => [[prem.neg, con]]
  | .ite, [cond, thenLit, elseLit] => [[cond.neg, thenLit], [cond, elseLit]]
  | .iff, ls => iffClauses [] ls
  | .xor, ls => xorClauses ls true []
  | _, _ => []

/-- The clauses that make a literal equivalent to a formula. -/
def tseitinClauses (ts : Lit) : Connective → List Lit → List Clause
  | .or, ls => (ls ++ [ts.neg]) :: ls.map fun l => [ts, l.neg]
  | .and, ls => (ls.map fun l => [ts.neg, l]) ++ [ls.map Lit.neg ++ [ts]]
  | .implies, [prem, con] => [[ts.neg, prem.neg, con], [ts, prem], [ts, con.neg]]
  | .ite, [cond, thenLit, elseLit] =>
    [[ts, cond.neg, thenLit.neg], [ts, cond, elseLit.neg], [ts.neg, cond.neg, thenLit],
      [ts.neg, cond, elseLit]]
  | .iff, ls => (ls ++ [ts]) :: (ls.map Lit.neg ++ [ts]) :: iffClauses [ts.neg] ls
  | .xor, ls => xorClauses (ls ++ [ts.neg]) true []
  | _, _ => []

/-- The values of literals. -/
def values (α : Valuation) (ls : List Lit) : List Bool := ls.map fun l => decide (l.Holds α)

/-! ## Their meaning -/

variable {l : Lit}

namespace Clause

@[simp] theorem holds_nil : ¬Holds α [] := by simp [Holds]

@[simp] theorem holds_cons : Holds α (l :: c) ↔ l.Holds α ∨ Holds α c := by
  simp [Holds]

@[simp] theorem holds_append {d : Clause} : Holds α (c ++ d) ↔ Holds α c ∨ Holds α d := by
  simp [Holds, or_and_right, exists_or]

theorem holds_map_neg : Holds α (ls.map Lit.neg) ↔ ¬(values α ls).all id = true := by
  simp [Holds, values]

end Clause

theorem xorClauses_holds (hls : ls ≠ []) (even : Bool) (clause : Clause) :
    (∀ c ∈ xorClauses ls even clause, c.Holds α) ↔
      clause.Holds α ∨ (values α ls).foldr Bool.xor false = even := by
  induction ls generalizing even clause with
  | nil => exact absurd rfl hls
  | cons l ls ih =>
    cases ls with
    | nil =>
      by_cases hl : l.Holds α <;> cases even <;> simp [xorClauses, values, hl]
    | cons k ls =>
      have ih := fun even clause => ih (cons_ne_nil k ls) even clause
      have hval : (values α (l :: k :: ls)).foldr Bool.xor false =
          (decide (l.Holds α) ^^ (values α (k :: ls)).foldr Bool.xor false) := rfl
      rw [xorClauses, hval]
      simp only [mem_append, or_imp, forall_and, ih, Clause.holds_append,
        Clause.holds_cons, Clause.holds_nil, or_false, Lit.holds_neg]
      generalize (values α (k :: ls)).foldr Bool.xor false = b
      by_cases hc : clause.Holds α <;> by_cases hl : l.Holds α <;> cases even <;> cases b <;>
        simp [hc, hl]

theorem iffClauses_holds (h : Clause) :
    (∀ c ∈ iffClauses h ls, c.Holds α) ↔
      h.Holds α ∨ (values α ls).all id = true ∨ (values α ls).all Bool.not = true := by
  induction ls with
  | nil => simp [iffClauses, values]
  | cons l ls ih =>
    cases ls with
    | nil => by_cases hl : l.Holds α <;> simp [iffClauses, values, hl]
    | cons k ls =>
      rw [iffClauses]
      simp only [forall_mem_cons, ih, Clause.holds_append, Clause.holds_cons,
        Clause.holds_nil, Lit.holds_neg, or_false]
      by_cases hh : h.Holds α
      · simp [hh]
      · by_cases hl : l.Holds α <;> by_cases hk : k.Holds α <;>
          simp [hh, hl, hk, values]

theorem foldr_xor_append (as : List Bool) (b : Bool) :
    (as ++ [b]).foldr Bool.xor false = (as.foldr Bool.xor false ^^ b) := by
  induction as with
  | nil => simp
  | cons a as ih => rw [cons_append, foldr_cons, foldr_cons, ih, Bool.xor_assoc]

variable {op : Connective}

/-- The clauses of a received formula say that it is true. -/
theorem topClauses_holds (hop : op ≠ .not) (hand : op ≠ .and)
    (harity : hasArity op ls.length = true) :
    (∀ c ∈ topClauses op ls, c.Holds α) ↔ op.eval (values α ls) = true := by
  cases op with
  | not => exact absurd rfl hop
  | and => exact absurd rfl hand
  | or => simp [topClauses, Clause.Holds, values]
  | implies =>
    obtain ⟨p, c, rfl⟩ := length_eq_two.mp (of_decide_eq_true harity)
    by_cases hp : p.Holds α <;> simp [topClauses, values, hp]
  | ite =>
    obtain ⟨c, a, b, rfl⟩ := length_eq_three.mp (of_decide_eq_true harity)
    by_cases hc : c.Holds α <;> simp [topClauses, values, hc]
  | iff =>
    rw [topClauses, iffClauses_holds]
    simp [Connective.eval]
  | xor =>
    have hne : ls ≠ [] := by
      rintro rfl
      cases harity
    rw [topClauses, xorClauses_holds hne]
    simp [Connective.eval]

/-- The defining clauses say that the literal has the value of the formula. -/
theorem tseitinClauses_holds (hop : op ≠ .not) (harity : hasArity op ls.length = true) :
    (∀ c ∈ tseitinClauses ts op ls, c.Holds α) ↔ (ts.Holds α ↔ op.eval (values α ls) = true) := by
  cases op with
  | not => exact absurd rfl hop
  | or =>
    by_cases hts : ts.Holds α
    · simp [tseitinClauses, hts, values, Clause.Holds]
    · simp [tseitinClauses, hts, values]
  | and =>
    by_cases hts : ts.Holds α
    · simp [tseitinClauses, hts, values, or_imp, forall_and]
    · simp [tseitinClauses, hts, values, or_imp, forall_and, Clause.Holds]
  | implies =>
    obtain ⟨p, c, rfl⟩ := length_eq_two.mp (of_decide_eq_true harity)
    by_cases hp : p.Holds α <;> by_cases hts : ts.Holds α <;>
      simp [tseitinClauses, values, hp, hts]
  | ite =>
    obtain ⟨c, a, b, rfl⟩ := length_eq_three.mp (of_decide_eq_true harity)
    by_cases hc : c.Holds α <;> by_cases hts : ts.Holds α <;>
      simp [tseitinClauses, values, hc, hts]
  | iff =>
    simp only [tseitinClauses, forall_mem_cons, iffClauses_holds]
    by_cases hts : ts.Holds α
    · simp [hts, Connective.eval]
    · have hls : Clause.Holds α ls ↔ ¬(values α ls).all Bool.not = true := by
        simp [Clause.Holds, values]
      simp only [Clause.holds_append, Clause.holds_cons, Clause.holds_nil, Lit.holds_neg, hts,
        Clause.holds_map_neg, hls, Connective.eval, Bool.or_eq_true]
      tauto
  | xor =>
    rw [tseitinClauses, xorClauses_holds (by simp)]
    have hval : values α (ls ++ [ts.neg]) = values α ls ++ [!decide (ts.Holds α)] := by
      simp [values]
    rw [hval, foldr_xor_append]
    by_cases hts : ts.Holds α <;> simp [hts, Connective.eval]

/-! ## Their variables -/

theorem iffClauses_vars {h : Clause} (hc : c ∈ iffClauses h ls) (hl : l ∈ c) :
    l ∈ h ∨ ∃ k ∈ ls, l.var = k.var := by
  induction ls with
  | nil => cases hc
  | cons a ls ih =>
    cases ls with
    | nil => cases hc
    | cons b ls =>
      rw [iffClauses, mem_cons, mem_cons] at hc
      obtain rfl | rfl | hc := hc
      · simp only [mem_append, mem_cons, not_mem_nil, or_false] at hl
        obtain (rfl | rfl) | hl := hl
        · exact Or.inr ⟨a, by simp, rfl⟩
        · exact Or.inr ⟨l, by simp, rfl⟩
        · exact Or.inl hl
      · simp only [mem_append, mem_cons, not_mem_nil, or_false] at hl
        obtain (rfl | rfl) | hl := hl
        · exact Or.inr ⟨l, by simp, rfl⟩
        · exact Or.inr ⟨b, by simp, rfl⟩
        · exact Or.inl hl
      · obtain hl | ⟨k, hk, hlk⟩ := ih hc
        · exact Or.inl hl
        · exact Or.inr ⟨k, mem_cons_of_mem a hk, hlk⟩

theorem xorClauses_vars {even : Bool} {clause : Clause}
    (hc : c ∈ xorClauses ls even clause) (hl : l ∈ c) : l ∈ clause ∨ ∃ k ∈ ls, l.var = k.var := by
  induction ls generalizing even clause with
  | nil => cases hc
  | cons a ls ih =>
    cases ls with
    | nil =>
      rw [xorClauses, mem_singleton] at hc
      rw [hc, mem_append, mem_singleton] at hl
      obtain hl | rfl := hl
      · exact Or.inl hl
      · exact Or.inr ⟨a, by simp, by cases even <;> rfl⟩
    | cons b ls =>
      have hstep : ∀ {even : Bool} {k : Lit}, k.var = a.var →
          c ∈ xorClauses (b :: ls) even (clause ++ [k]) →
            l ∈ clause ∨ ∃ k ∈ a :: b :: ls, l.var = k.var := by
        intro even k hk hc
        obtain hl | ⟨j, hj, hlj⟩ := ih hc
        · obtain hl | hl := mem_append.mp hl
          · exact Or.inl hl
          · rw [mem_singleton.mp hl]
            exact Or.inr ⟨a, mem_cons_self, hk⟩
        · exact Or.inr ⟨j, mem_cons_of_mem a hj, hlj⟩
      rw [xorClauses, mem_append] at hc
      obtain hc | hc := hc
      · exact hstep rfl hc
      · exact hstep (Lit.var_neg a) hc

/-- The last literal is in every clause. -/
theorem xorClauses_last {k : Lit} (even : Bool) (clause : Clause) :
    ∃ c ∈ xorClauses (ls ++ [k]) even clause, ∃ l ∈ c, l.var = k.var := by
  induction ls generalizing even clause with
  | nil =>
    refine ⟨_, mem_singleton.mpr rfl, _, mem_append_right _ mem_cons_self, ?_⟩
    cases even <;> rfl
  | cons a ls ih =>
    obtain ⟨c, hc, hk⟩ := ih even (clause ++ [a])
    refine ⟨c, ?_, hk⟩
    cases ls with
    | nil => exact mem_append_left _ hc
    | cons b ls => exact mem_append_left _ hc

/-- The clauses of a received formula are about its arguments. -/
theorem topClauses_vars (hc : c ∈ topClauses op ls) (hl : l ∈ c) : ∃ k ∈ ls, l.var = k.var := by
  cases op with
  | not => cases hc
  | and => cases hc
  | or =>
    rw [topClauses, mem_singleton] at hc
    exact ⟨l, hc ▸ hl, rfl⟩
  | implies =>
    match ls, hc with
    | [p, q], hc =>
      simp only [topClauses, mem_singleton] at hc
      subst hc
      simp only [mem_cons, not_mem_nil, or_false] at hl
      obtain rfl | rfl := hl <;> simp
  | ite =>
    match ls, hc with
    | [p, q, r], hc =>
      simp only [topClauses, mem_cons, not_mem_nil, or_false] at hc
      obtain rfl | rfl := hc <;>
        simp only [mem_cons, not_mem_nil, or_false] at hl <;>
        obtain rfl | rfl := hl <;> simp
  | iff => exact (iffClauses_vars hc hl).resolve_left (not_mem_nil)
  | xor => exact (xorClauses_vars hc hl).resolve_left (not_mem_nil)

theorem topClauses_ne_nil (hop : op ≠ .not) (hand : op ≠ .and)
    (harity : hasArity op ls.length = true) : topClauses op ls ≠ [] := by
  cases op with
  | not => exact absurd rfl hop
  | and => exact absurd rfl hand
  | or => exact cons_ne_nil _ _
  | implies =>
    match ls, harity with
    | [_, _], _ => exact cons_ne_nil _ _
  | ite =>
    match ls, harity with
    | [_, _, _], _ => exact cons_ne_nil _ _
  | iff =>
    match ls, harity with
    | _ :: _ :: _, _ => exact cons_ne_nil _ _
  | xor =>
    obtain ⟨ls, k, rfl⟩ := (eq_nil_or_concat ls).resolve_left (by rintro rfl; cases harity)
    obtain ⟨c, hc, -⟩ := @xorClauses_last ls k true []
    rw [concat_eq_append]
    exact ne_nil_of_mem hc

/-- The defining clauses are about the literal that they define. -/
theorem tseitinClauses_mentions (hop : op ≠ .not) (harity : hasArity op ls.length = true) :
    ∃ c ∈ tseitinClauses ts op ls, ∃ l ∈ c, l.var = ts.var := by
  cases op with
  | not => exact absurd rfl hop
  | and => exact ⟨_, mem_append_right _ mem_cons_self, ts, by simp, rfl⟩
  | or => exact ⟨_, mem_cons_self, ts.neg, by simp, rfl⟩
  | implies =>
    match ls, harity with
    | [_, _], _ => exact ⟨_, mem_cons_self, ts.neg, by simp, rfl⟩
  | ite =>
    match ls, harity with
    | [_, _, _], _ => exact ⟨_, mem_cons_self, ts, by simp, rfl⟩
  | iff => exact ⟨_, mem_cons_self, ts, by simp, rfl⟩
  | xor => exact xorClauses_last true []

end Smtrat.SAT
