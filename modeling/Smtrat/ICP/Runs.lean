import Smtrat.Common.Run
import Smtrat.ICP.ICPModule

/-!
# Runs

Candidates and the formulas of the internal LRA module always belong to the received constraints.
The variables keep every constraint that has been added, since a removal adds it as well.
-/

/-!
## Bookkeeping

Informing about a constraint creates candidates without origins and changes nothing of what has
been created before.  An addition and a removal visit the candidates of one constraint, so that each
candidate has as origins those received constraints that it has been created for.
-/

namespace Smtrat.ICP

open SparsePoly PropFormula List Function

universe u v w

variable {U : Type u} {B : Type v} {S : Type w}

namespace ICPModule

def originalsOf (m : ICPModule U S) (x : SolverVariable U) : List (Constraint (SolverVariable U)) :=
  ((m.mVariables x).map (·.mOriginalConstraints)).getD []

/-- All candidates exist. -/
def Exist (m : ICPModule U S) (ccs : List ℕ) : Prop := ∀ id ∈ ccs, id < m.mCandidateManager.length

/-- Variables refer to candidates that exist. -/
def Refers (m : ICPModule U S) : Prop :=
  ∀ x icpVar, m.mVariables x = some icpVar → m.Exist icpVar.mCandidates

/-! ## Informing about constraints -/

/-- There are more candidates and variables, and all else stays. -/
structure Grows (m m' : ICPModule U S) : Prop where
  candidates : ∃ new, m'.mCandidateManager = m.mCandidateManager ++ new ∧
    ∀ cc ∈ new, cc.mOrigin = []
  originals : ∀ x, m'.originalsOf x = m.originalsOf x
  nonlinear : m'.mNonlinearConstraints = m.mNonlinearConstraints
  linear : m'.mLinearConstraints = m.mLinearConstraints
  linearizations : m'.mLinearizations = m.mLinearizations
  deLinearizations : m'.mDeLinearizations = m.mDeLinearizations
  validation : m'.mValidationFormula = m.mValidationFormula
  refers : m.Refers → m'.Refers

variable {m m' m'' : ICPModule U S}

theorem Grows.refl (m : ICPModule U S) : Grows m m where
  candidates := ⟨[], (append_nil _).symm, nofun⟩
  originals _ := rfl
  nonlinear := rfl
  linear := rfl
  linearizations := rfl
  deLinearizations := rfl
  validation := rfl
  refers := id

theorem Grows.trans (h : Grows m m') (h' : Grows m' m'') : Grows m m'' where
  candidates := by
    obtain ⟨new, hnew, hempty⟩ := h.candidates
    obtain ⟨new', hnew', hempty'⟩ := h'.candidates
    refine ⟨new ++ new', by rw [hnew', hnew, append_assoc], fun cc hcc => ?_⟩
    exact (mem_append.mp hcc).elim (hempty cc) (hempty' cc)
  originals x := (h'.originals x).trans (h.originals x)
  nonlinear := h'.nonlinear.trans h.nonlinear
  linear := h'.linear.trans h.linear
  linearizations := h'.linearizations.trans h.linearizations
  deLinearizations := h'.deLinearizations.trans h.deLinearizations
  validation := h'.validation.trans h.validation
  refers := h'.refers ∘ h.refers

variable {ccs : List ℕ}

theorem Grows.exist (h : Grows m m') (hccs : m.Exist ccs) : m'.Exist ccs := by
  obtain ⟨new, hnew, -⟩ := h.candidates
  intro id hid
  rw [hnew, length_append]
  exact (hccs id hid).trans_le (Nat.le_add_right _ _)

variable {ccs' : List ℕ}

theorem Exist.union [DecidableEq ℕ] (h : m.Exist ccs) (h' : m.Exist ccs') : m.Exist (ccs ∪ ccs') :=
  fun id hid => (mem_union_iff.mp hid).elim (h id) (h' id)

theorem createCandidates_grows (lhs : SolverVariable U) (rhs : Poly (SolverVariable U) ℚ)
    (linear : Bool) (vars : List (SolverVariable U)) (m : ICPModule U S) :
    Grows m (m.createCandidates lhs rhs linear vars).2 where
  candidates := ⟨_, rfl, fun cc hcc => by obtain ⟨x, -, rfl⟩ := mem_map.mp hcc; rfl⟩
  originals _ := rfl
  nonlinear := rfl
  linear := rfl
  linearizations := rfl
  deLinearizations := rfl
  validation := rfl
  refers h x icpVar hx id hid := by
    rw [createCandidates, length_append]
    exact (h x icpVar hx id hid).trans_le (Nat.le_add_right _ _)

theorem exist_createCandidates (lhs : SolverVariable U) (rhs : Poly (SolverVariable U) ℚ)
    (linear : Bool) (vars : List (SolverVariable U)) (m : ICPModule U S) :
    (m.createCandidates lhs rhs linear vars).2.Exist
      (m.createCandidates lhs rhs linear vars).1 := by
  intro id hid
  simp only [createCandidates, mem_range'_1, length_append, length_map] at hid ⊢
  exact hid.2

/-! ## The invariant -/

/-- The candidate is in the lists of the constraint. -/
def CreatedFor (lib : Library U B S) (m : ICPModule U S) (id : ℕ)
    (c : Constraint (SolverVariable U)) : Prop :=
  (∃ ids, m.mNonlinearConstraints c = some ids ∧ id ∈ ids) ∨
    ∃ f ids, m.mLinearizations c = some f ∧ lib.isBound f = false ∧
      m.mLinearConstraints (lib.getSlackVariable f) = some ids ∧ id ∈ ids

/-- What holds between the actions when the constraints `R` have been received. -/
structure Inv (lib : Library U B S) (m : ICPModule U S)
    (R : Set (Constraint (SolverVariable U))) : Prop where
  refers : m.Refers
  nonlinear : ∀ c ids, m.mNonlinearConstraints c = some ids →
    c.relation ≠ .neq ∧ isLinear c.lhs = false ∧ m.Exist ids
  linear : ∀ s ids, m.mLinearConstraints s = some ids → m.Exist ids
  linearized : ∀ c f, m.mLinearizations c = some f →
    m.mDeLinearizations f = some c ∧ c.relation ≠ .neq
  received : ∀ c ∈ R, c.relation ≠ .neq → (m.mLinearizations c).isSome
  slack : ∀ c ∈ R, ∀ f, m.mLinearizations c = some f → lib.isBound f = false →
    (m.mLinearConstraints (lib.getSlackVariable f)).isSome
  origins : ∀ id cc, m.mCandidateManager[id]? = some cc →
    ∀ c, c ∈ cc.mOrigin ↔ c ∈ R ∧ m.CreatedFor lib id c
  nodup : m.mValidationFormula.Nodup
  validation : ∀ f, f ∈ m.mValidationFormula ↔ ∃ c ∈ R, m.mLinearizations c = some f

variable {lib : Library U B S} {R : Set (Constraint (SolverVariable U))}

variable {c : Constraint (SolverVariable U)}

theorem Inv.createdFor_lt (h : m.Inv lib R) {id : ℕ}
    (hc : m.CreatedFor lib id c) : id < m.mCandidateManager.length := by
  rcases hc with ⟨ids, hids, hid⟩ | ⟨f, ids, -, -, hids, hid⟩
  · exact (h.nonlinear c ids hids).2.2 id hid
  · exact h.linear _ ids hids id hid

/-- The received constraints, the origins and the formulas of the LRA module change together. -/
theorem Inv.change (h : m.Inv lib R) {R' : Set (Constraint (SolverVariable U))}
    {l : List (Constraint (SolverVariable U))} (hrefers : m.Refers → m'.Refers)
    (hlen : m.mCandidateManager.length ≤ m'.mCandidateManager.length)
    (hsame : m'.mNonlinearConstraints = m.mNonlinearConstraints ∧
      m'.mLinearConstraints = m.mLinearConstraints ∧ m'.mLinearizations = m.mLinearizations ∧
      m'.mDeLinearizations = m.mDeLinearizations)
    (hrec : ∀ c ∈ R', c.relation ≠ .neq → (m.mLinearizations c).isSome)
    (hslack : ∀ c ∈ R', ∀ f, m.mLinearizations c = some f → lib.isBound f = false →
      (m.mLinearConstraints (lib.getSlackVariable f)).isSome)
    (horigs : ∀ id cc', m'.mCandidateManager[id]? = some cc' →
      ∀ c, c ∈ cc'.mOrigin ↔ c ∈ R' ∧ m.CreatedFor lib id c)
    (hnodup : l.Nodup) (hl : ∀ f, f ∈ l ↔ ∃ c ∈ R', m.mLinearizations c = some f) :
    Inv lib { m' with mValidationFormula := l } R' := by
  obtain ⟨hnonlinear, hlin, hlinearizations, hdeLinearizations⟩ := hsame
  have hexist : ∀ {ids}, m.Exist ids → m'.Exist ids := fun hids id hid =>
    (hids id hid).trans_le hlen
  constructor
  case refers => exact hrefers h.refers
  case nonlinear =>
    intro c ids hids
    obtain ⟨hneq, hlin, hexists⟩ := h.nonlinear c ids (hnonlinear ▸ hids)
    exact ⟨hneq, hlin, hexist hexists⟩
  case linear => exact fun s ids hids => hexist (h.linear s ids (hlin ▸ hids))
  case origins =>
    intro id cc hcc c
    rw [horigs id cc hcc c, CreatedFor, CreatedFor, ← hnonlinear, ← hlin, ← hlinearizations]
  all_goals simp only [hlinearizations, hdeLinearizations, hlin]
  case linearized => exact h.linearized
  case received => exact hrec
  case slack => exact hslack
  case nodup => exact hnodup
  case validation => exact hl

theorem Inv.grows (h : m.Inv lib R) (hgrows : Grows m m') : m'.Inv lib R := by
  obtain ⟨new, hnew, hempty⟩ := hgrows.candidates
  refine h.change hgrows.refers (by rw [hnew, length_append]; exact Nat.le_add_right _ _)
    ⟨hgrows.nonlinear, hgrows.linear, hgrows.linearizations, hgrows.deLinearizations⟩
    h.received h.slack (fun id cc hcc c => ?_) (hgrows.validation ▸ h.nodup)
    (hgrows.validation ▸ h.validation)
  rw [hnew] at hcc
  rcases lt_or_ge id m.mCandidateManager.length with hid | hid
  · rw [getElem?_append_left hid] at hcc
    exact h.origins id cc hcc c
  · rw [getElem?_append_right hid] at hcc
    rw [hempty cc (mem_of_getElem? hcc)]
    refine iff_of_false not_mem_nil fun hc => ?_
    exact absurd (h.createdFor_lt hc.2) (not_lt.mpr hid)

/-- A constraint that has not been linearized is not received. -/
theorem Inv.notMem (h : m.Inv lib R)
    (hc : m.mLinearizations c = none) (hneq : c.relation ≠ .neq) : c ∉ R := by
  intro hmem
  have := h.received c hmem hneq
  rw [hc] at this
  cases this

/-! ## Linearization -/

section DecidableEq

variable [DecidableEq U]

theorem originalsOf_update (m : ICPModule U S) (x : SolverVariable U) (icpVar : IcpVariable U)
    (y : SolverVariable U) :
    originalsOf { m with mVariables := update m.mVariables x (some icpVar) } y
      = if y = x then icpVar.mOriginalConstraints else m.originalsOf y := by
  simp only [originalsOf, update_apply]
  split_ifs <;> rfl

/-- A variable gets further candidates. -/
theorem grows_setVariable {x : SolverVariable U} {icpVar : IcpVariable U}
    (horigs : icpVar.mOriginalConstraints = m.originalsOf x)
    (hcands : m.Refers → m.Exist icpVar.mCandidates) :
    Grows m { m with mVariables := update m.mVariables x (some icpVar) } where
  candidates := ⟨[], (append_nil _).symm, nofun⟩
  originals y := by
    rw [originalsOf_update]
    split_ifs with hy
    · rw [hy, horigs]
    · rfl
  nonlinear := rfl
  linear := rfl
  linearizations := rfl
  deLinearizations := rfl
  validation := rfl
  refers h y icpVar' hy := by
    dsimp only at hy
    rw [update_apply] at hy
    split_ifs at hy
    · obtain rfl := Option.some.inj hy
      exact hcands h
    · exact h y icpVar' hy

theorem addCandidates_grows {xs : List (SolverVariable U)}
    (h : m.addCandidates ccs xs = some m') (hccs : m.Exist ccs) : Grows m m' := by
  induction xs generalizing m with
  | nil =>
    obtain rfl := Option.some.inj h
    exact .refl m
  | cons x xs ih =>
    rw [addCandidates] at h
    split at h
    · cases h
    · rename_i icpVar hx
      refine (grows_setVariable ?_ fun hm => (hm x icpVar hx).union hccs).trans (ih h hccs)
      rw [originalsOf, hx]
      rfl

theorem createCCs_grows {newVar : SolverVariable U} {rhs : Poly (SolverVariable U) ℚ}
    {linear : Bool} {vars : List (SolverVariable U)}
    (h : m.createCCs newVar rhs linear vars = some (ccs, m')) :
    Grows m m' ∧ m'.Exist ccs := by
  obtain ⟨m₁, hadd, heq⟩ := Option.map_eq_some_iff.mp h
  obtain ⟨rfl, rfl⟩ := Prod.mk.inj heq
  have hexist := exist_createCandidates newVar rhs linear (vars ++ [newVar]) m
  have hgrows := addCandidates_grows hadd hexist
  exact ⟨(createCandidates_grows _ _ _ _ m).trans hgrows, hgrows.exist hexist⟩

theorem getIcpVariable_grows (x : SolverVariable U) (original : Bool) (m : ICPModule U S) :
    Grows m (getIcpVariable x original m) := by
  rw [getIcpVariable]
  split
  · exact .refl m
  · rename_i hx
    refine grows_setVariable ?_ fun _ => nofun
    rw [originalsOf, hx]
    rfl

/-- A variable gets known, with what it stands for. -/
theorem grows_substitute (x : SolverVariable U) (original : Bool)
    (p : Poly (SolverVariable U) ℚ) (n : ℕ) (m : ICPModule U S) :
    Grows m (getIcpVariable x original { m with
      mSubstitutions := update m.mSubstitutions x (some p)
      freshVariables := n }) := by
  have h := getIcpVariable_grows x original { m with
    mSubstitutions := update m.mSubstitutions x (some p)
    freshVariables := n }
  exact ⟨h.candidates, h.originals, h.nonlinear, h.linear, h.linearizations,
    h.deLinearizations, h.validation, h.refers⟩

theorem newVariable_grows (int : Bool) (p : SolverVariable U → Poly (SolverVariable U) ℚ)
    (m : ICPModule U S) : Grows m (m.newVariable int p).2 :=
  grows_substitute _ false _ _ m

theorem introduce_grows (m : ICPModule U S) (x : SolverVariable U) : Grows m (m.introduce x) := by
  rw [introduce]
  split_ifs
  · exact .refl m
  · exact grows_substitute x true _ m.freshVariables m

theorem introduces_grows (m : ICPModule U S) (xs : List (SolverVariable U)) :
    Grows m (xs.foldl introduce m) := by
  induction xs generalizing m with
  | nil => exact .refl m
  | cons x xs ih => exact (introduce_grows m x).trans (ih _)

theorem linearizeMonomial_grows {monom : Monomial U}
    (h : linearizeMonomial lib monom ccs m = some (ccs', m')) :
    Grows m m' ∧ (m.Refers → m.Exist ccs → m'.Exist ccs') := by
  rw [linearizeMonomial] at h
  split at h
  case h_1 hmonom =>
    obtain ⟨⟨new, m₁⟩, hcrea, heq⟩ := Option.map_eq_some_iff.mp h
    obtain ⟨rfl, rfl⟩ := Prod.mk.inj heq
    obtain ⟨hcrea, hnew⟩ := createCCs_grows hcrea
    have hvar := newVariable_grows
      ((monom.map (·.1)).dedup.all (Manager.isInt lib.int)) (fun _ => [⟨1, monom⟩]) m
    have hgrows := hvar.trans ⟨hcrea.candidates, hcrea.originals, hcrea.nonlinear,
      hcrea.linear, hcrea.linearizations, hcrea.deLinearizations, hcrea.validation,
      hcrea.refers⟩
    exact ⟨hgrows, fun _ hccs => (hgrows.exist hccs).union hnew⟩
  case h_2 x hmonom =>
    obtain ⟨icpVar, hx, heq⟩ := Option.map_eq_some_iff.mp h
    obtain ⟨rfl, rfl⟩ := Prod.mk.inj heq
    exact ⟨.refl m, fun hm hccs => hccs.union (hm x icpVar hx)⟩

theorem linearizeMonomials_grows {monoms : List (Monomial U)}
    (h : linearizeMonomials lib monoms ccs m = some (ccs', m')) :
    Grows m m' ∧ (m.Refers → m.Exist ccs → m'.Exist ccs') := by
  induction monoms generalizing ccs m with
  | nil =>
    obtain ⟨rfl, rfl⟩ := Prod.mk.inj (Option.some.inj h)
    exact ⟨.refl m, fun _ => id⟩
  | cons monom monoms ih =>
    obtain ⟨⟨ccs₁, m₁⟩, hmonom, hmonoms⟩ := Option.bind_eq_some_iff.mp h
    obtain ⟨hgrows, hexist⟩ := linearizeMonomial_grows hmonom
    obtain ⟨hgrows', hexist'⟩ := ih hmonoms
    exact ⟨hgrows.trans hgrows', fun hm hccs => hexist' (hgrows.refers hm) (hexist hm hccs)⟩

variable {ids : List ℕ}

/-- A constraint gets candidates before it is received. -/
theorem Inv.setNonlinear (h : m.Inv lib R) (hc : c ∉ R)
    (hneq : c.relation ≠ .neq) (hlin : isLinear c.lhs = false) (hids : m.Exist ids) :
    Inv lib { m with
      mNonlinearConstraints := update m.mNonlinearConstraints c (some ids) } R where
  refers := h.refers
  nonlinear c' ids' hids' := by
    dsimp only at hids'
    rw [update_apply] at hids'
    split_ifs at hids' with hcc'
    · obtain rfl := Option.some.inj hids'
      subst hcc'
      exact ⟨hneq, hlin, hids⟩
    · exact h.nonlinear c' ids' hids'
  linear := h.linear
  linearized := h.linearized
  received := h.received
  slack := h.slack
  origins id cc hcc c' := by
    rw [h.origins id cc hcc c']
    refine and_congr_right fun hc' => ?_
    rw [CreatedFor, CreatedFor]
    dsimp only
    rw [update_of_ne (ne_of_mem_of_not_mem hc' hc)]
  nodup := h.nodup
  validation := h.validation

variable {f : Constraint (SolverVariable U)}

/-- A constraint gets a linearization that no other one has. -/
theorem Inv.setLinearization (h : m.Inv lib R) (hc : c ∉ R)
    (hneq : c.relation ≠ .neq) (hf : m.mDeLinearizations f = none) :
    Inv lib { m with
      mDeLinearizations := update m.mDeLinearizations f (some c)
      mLinearizations := update m.mLinearizations c (some f) } R where
  refers := h.refers
  nonlinear := h.nonlinear
  linear := h.linear
  linearized c' f' hf' := by
    dsimp only at hf' ⊢
    rw [update_apply] at hf'
    split_ifs at hf' with hcc'
    · obtain rfl := Option.some.inj hf'
      rw [update_self, hcc']
      exact ⟨rfl, hneq⟩
    · obtain ⟨hde, hneq'⟩ := h.linearized c' f' hf'
      have hff' : f' ≠ f := by
        rintro rfl
        rw [hf] at hde
        cases hde
      rw [update_of_ne hff']
      exact ⟨hde, hneq'⟩
  received c' hc' := by
    dsimp only
    rw [update_of_ne (ne_of_mem_of_not_mem hc' hc)]
    exact h.received c' hc'
  slack c' hc' := by
    dsimp only
    rw [update_of_ne (ne_of_mem_of_not_mem hc' hc)]
    exact h.slack c' hc'
  origins id cc hcc c' := by
    rw [h.origins id cc hcc c']
    refine and_congr_right fun hc' => ?_
    rw [CreatedFor, CreatedFor]
    dsimp only
    rw [update_of_ne (ne_of_mem_of_not_mem hc' hc)]
  nodup := h.nodup
  validation f' := by
    rw [h.validation f']
    refine exists_congr fun c' => and_congr_right fun hc' => ?_
    dsimp only
    rw [update_of_ne (ne_of_mem_of_not_mem hc' hc)]

omit [DecidableEq U] in
/-- A slack variable gets candidates before a constraint with it is received. -/
theorem Inv.setLinear [DecidableEq S] (h : m.Inv lib R) {s : S}
    (hs : m.mLinearConstraints s = none) (hids : m.Exist ids) :
    Inv lib { m with
      mLinearConstraints := update m.mLinearConstraints s (some ids) } R where
  refers := h.refers
  nonlinear := h.nonlinear
  linear s' ids' hids' := by
    dsimp only at hids'
    rw [update_apply] at hids'
    split_ifs at hids'
    · obtain rfl := Option.some.inj hids'
      exact hids
    · exact h.linear s' ids' hids'
  linearized := h.linearized
  received := h.received
  slack c hc f hf hbd := by
    dsimp only
    rw [update_apply]
    split_ifs
    · rfl
    · exact h.slack c hc f hf hbd
  origins id cc hcc c := by
    rw [h.origins id cc hcc c]
    refine and_congr_right fun hc => or_congr_right (exists_congr fun f => ?_)
    refine exists_congr fun ids' => and_congr_right fun hf => and_congr_right fun hbd => ?_
    have hne : lib.getSlackVariable f ≠ s := by
      intro heq
      have := h.slack c hc f hf hbd
      rw [heq, hs] at this
      cases this
    dsimp only
    rw [update_of_ne hne]
  nodup := h.nodup
  validation := h.validation

/-! ### Informing about constraints -/

theorem Inv.createNonlinearCCs (h : m.Inv lib R) (hc : c ∉ R)
    (hneq : c.relation ≠ .neq) (hlin : isLinear c.lhs = false) {p : Poly (SolverVariable U) ℚ}
    (hcrea : m.createNonlinearCCs lib c = some (p, m')) :
    m'.Inv lib R ∧ (∀ x, m'.originalsOf x = m.originalsOf x) ∧
      m'.mLinearizations = m.mLinearizations := by
  obtain ⟨⟨ccs, m₁⟩, hmonoms, hlhs⟩ := Option.bind_eq_some_iff.mp hcrea
  obtain ⟨p, -, heq⟩ := Option.map_eq_some_iff.mp hlhs
  obtain ⟨rfl, rfl⟩ := Prod.mk.inj heq
  obtain ⟨hgrows, hexist⟩ := linearizeMonomials_grows hmonoms
  refine ⟨?_, hgrows.originals, hgrows.linearizations⟩
  split_ifs
  · exact h.grows hgrows
  · exact (h.grows hgrows).setNonlinear hc hneq hlin (hexist h.refers nofun)

theorem Inv.createLinearCCs [DecidableEq S] (h : m.Inv lib R)
    (hcrea : m.createLinearCCs lib f = some m') :
    m'.Inv lib R ∧ ∀ x, m'.originalsOf x = m.originalsOf x := by
  rw [ICPModule.createLinearCCs] at hcrea
  dsimp only at hcrea
  split at hcrea
  case h_1 => exact Option.some.inj hcrea ▸ ⟨h, fun _ => rfl⟩
  case h_2 hslack =>
    obtain ⟨⟨ccs, m₁⟩, hccs, hset⟩ := Option.bind_eq_some_iff.mp hcrea
    obtain ⟨icpVar, hvar, rfl⟩ := Option.map_eq_some_iff.mp hset
    have hgrows := (newVariable_grows _ _ m).trans (createCCs_grows hccs).1
    have hinv := h.grows hgrows
    refine ⟨hinv.setLinear ?_ (hinv.refers _ icpVar hvar), hgrows.originals⟩
    rw [hgrows.linear]
    exact hslack

theorem Inv.linearFormula (h : m.Inv lib R) (hc : c ∉ R)
    (hneq : c.relation ≠ .neq) (hlin : m.linearFormula lib c = some (f, m')) :
    m'.Inv lib R ∧ (∀ x, m'.originalsOf x = m.originalsOf x) ∧
      m'.mLinearizations = m.mLinearizations := by
  rw [ICPModule.linearFormula] at hlin
  split_ifs at hlin with hc'
  case pos =>
    obtain ⟨-, rfl⟩ := Prod.mk.inj (Option.some.inj hlin)
    exact ⟨h, fun _ => rfl, rfl⟩
  case neg =>
    obtain ⟨⟨p, m₁⟩, hcrea, hpool⟩ := Option.bind_eq_some_iff.mp hlin
    dsimp only at hpool
    split at hpool
    case h_1 => cases hpool
    case h_2 f' _ =>
      obtain ⟨-, rfl⟩ := Prod.mk.inj (Option.some.inj hpool)
      exact h.createNonlinearCCs hc hneq (Bool.eq_false_iff.mpr hc') hcrea

theorem Inv.addConstraint [DecidableEq S] (h : m.Inv lib R)
    (hneq : c.relation ≠ .neq) (hadd : m.addConstraint lib c = some m') :
    m'.Inv lib R ∧ ∀ x, m'.originalsOf x = m.originalsOf x := by
  rw [ICPModule.addConstraint] at hadd
  split at hadd
  case h_1 => exact Option.some.inj hadd ▸ ⟨h, fun _ => rfl⟩
  case h_2 hnone =>
    have hc := h.notMem hnone hneq
    obtain ⟨⟨f, m₁⟩, hlin, hadd⟩ := Option.bind_eq_some_iff.mp hadd
    have hgrows : Grows m ((Poly.variables c.lhs).dedup.foldl introduce m) := introduces_grows m _
    obtain ⟨hinv, horigs, -⟩ := (h.grows hgrows).linearFormula hc hneq hlin
    have horigs' : ∀ x, m₁.originalsOf x = m.originalsOf x := fun x =>
      (horigs x).trans (hgrows.originals x)
    dsimp only at hadd
    split_ifs at hadd with hde hbd
    case pos =>
      obtain rfl := Option.some.inj hadd
      exact ⟨hinv.setLinearization hc hneq (Option.not_isSome_iff_eq_none.mp hde), horigs'⟩
    case neg =>
      obtain ⟨hinv', horigs''⟩ :=
        (hinv.setLinearization hc hneq (Option.not_isSome_iff_eq_none.mp hde)).createLinearCCs hadd
      exact ⟨hinv', fun x => (horigs'' x).trans (horigs' x)⟩

theorem Inv.informCore [DecidableEq S] (h : m.Inv lib R) (hinform : m.informCore lib c = some m') :
    m'.Inv lib R ∧ ∀ x, m'.originalsOf x = m.originalsOf x := by
  rw [ICPModule.informCore] at hinform
  split_ifs at hinform with hc
  · exact h.addConstraint hc.2 hinform
  · exact Option.some.inj hinform ▸ ⟨h, fun _ => rfl⟩

/-! ## Origins -/

/-- The candidates and the sets of active ones have changed. -/
structure Visited (m m' : ICPModule U S) : Prop where
  sameVariables : m'.mVariables = m.mVariables
  nonlinear : m'.mNonlinearConstraints = m.mNonlinearConstraints
  linear : m'.mLinearConstraints = m.mLinearConstraints
  linearizations : m'.mLinearizations = m.mLinearizations
  deLinearizations : m'.mDeLinearizations = m.mDeLinearizations
  validation : m'.mValidationFormula = m.mValidationFormula

omit [DecidableEq U] in
theorem Visited.trans (h : Visited m m') (h' : Visited m' m'') : Visited m m'' where
  sameVariables := h'.sameVariables.trans h.sameVariables
  nonlinear := h'.nonlinear.trans h.nonlinear
  linear := h'.linear.trans h.linear
  linearizations := h'.linearizations.trans h.linearizations
  deLinearizations := h'.deLinearizations.trans h.deLinearizations
  validation := h'.validation.trans h.validation

omit [DecidableEq U] in
/-- A loop over candidates changes each of them once. -/
theorem foldl_visit {visit : ICPModule U S → ℕ → ICPModule U S}
    {g : ContractionCandidate U → ContractionCandidate U} (hg : ∀ cc, g (g cc) = g cc)
    (hvisit : ∀ m id, Visited m (visit m id) ∧
      (visit m id).mCandidateManager = m.mCandidateManager.modify id g)
    (ids : List ℕ) (m : ICPModule U S) : Visited m (ids.foldl visit m) ∧
      (ids.foldl visit m).mCandidateManager.length = m.mCandidateManager.length ∧
      ∀ id, (ids.foldl visit m).mCandidateManager[id]? =
        (m.mCandidateManager[id]?).map fun cc => if id ∈ ids then g cc else cc := by
  induction ids generalizing m with
  | nil => exact ⟨⟨rfl, rfl, rfl, rfl, rfl, rfl⟩, rfl, fun id => by simp⟩
  | cons i ids ih =>
    obtain ⟨hfst, hmodify⟩ := hvisit m i
    obtain ⟨hrest, hlen, hget⟩ := ih (visit m i)
    refine ⟨hfst.trans hrest, ?_, fun id => (hget id).trans ?_⟩
    · rw [foldl_cons, hlen, hmodify, length_modify]
    rw [hmodify, getElem?_modify, Option.map_eq_map, Option.map_map]
    refine congrArg (Option.map · _) (funext fun cc => ?_)
    by_cases hi : i = id
    · subst hi
      by_cases hmem : i ∈ ids <;> simp [hmem, hg]
    · by_cases hmem : id ∈ ids <;> simp [hmem, hi, Ne.symm hi]

def insertOrigin (c : Constraint (SolverVariable U)) (cc : ContractionCandidate U) :
    ContractionCandidate U := { cc with mOrigin := cc.mOrigin.insert c }

theorem insertOrigin_insertOrigin (c : Constraint (SolverVariable U))
    (cc : ContractionCandidate U) : insertOrigin c (insertOrigin c cc) = insertOrigin c cc := by
  simp [insertOrigin, insert_of_mem]

def filterOrigin (c : Constraint (SolverVariable U)) (cc : ContractionCandidate U) :
    ContractionCandidate U := { cc with mOrigin := cc.mOrigin.filter (· ≠ c) }

theorem filterOrigin_filterOrigin (c : Constraint (SolverVariable U))
    (cc : ContractionCandidate U) : filterOrigin c (filterOrigin c cc) = filterOrigin c cc := by
  simp [filterOrigin]

theorem activateNonlinear_visit (c : Constraint (SolverVariable U)) (m : ICPModule U S) (id : ℕ) :
    Visited m (activateNonlinear c m id) ∧
      (activateNonlinear c m id).mCandidateManager =
        m.mCandidateManager.modify id (insertOrigin c) :=
  ⟨⟨rfl, rfl, rfl, rfl, rfl, rfl⟩, rfl⟩

theorem activateLinear_visit (c : Constraint (SolverVariable U)) (m : ICPModule U S) (id : ℕ) :
    Visited m (activateLinear c m id) ∧
      (activateLinear c m id).mCandidateManager = m.mCandidateManager.modify id (insertOrigin c) :=
  ⟨⟨rfl, rfl, rfl, rfl, rfl, rfl⟩, rfl⟩

theorem deactivateNonlinear_visit (c : Constraint (SolverVariable U)) (m : ICPModule U S)
    (id : ℕ) : Visited m (deactivateNonlinear c m id) ∧
      (deactivateNonlinear c m id).mCandidateManager =
        m.mCandidateManager.modify id (filterOrigin c) := by
  simp only [deactivateNonlinear]
  split_ifs <;> exact ⟨⟨rfl, rfl, rfl, rfl, rfl, rfl⟩, rfl⟩

theorem deactivateLinear_visit (c : Constraint (SolverVariable U)) (m : ICPModule U S)
    (id : ℕ) : Visited m (deactivateLinear c m id) ∧
      (deactivateLinear c m id).mCandidateManager =
        m.mCandidateManager.modify id (filterOrigin c) := by
  simp only [deactivateLinear]
  split_ifs with horig hact
  · exact ⟨⟨rfl, rfl, rfl, rfl, rfl, rfl⟩, rfl⟩
  · exact ⟨⟨rfl, rfl, rfl, rfl, rfl, rfl⟩, rfl⟩
  · refine ⟨⟨rfl, rfl, rfl, rfl, rfl, rfl⟩, ?_⟩
    -- without the origin there is nothing to filter
    refine ext_getElem? fun i => ?_
    rw [getElem?_modify]
    cases hcc : m.mCandidateManager[i]? with
    | none => rfl
    | some cc =>
      rw [Option.map_eq_map, Option.map_some]
      split_ifs with hi
      · subst hi
        have hnot : c ∉ cc.mOrigin := by
          simpa [hasOriginAt, hcc] using horig
        have hfilt : cc.mOrigin.filter (· ≠ c) = cc.mOrigin :=
          filter_eq_self.mpr fun c' hc' =>
            decide_eq_true (ne_of_mem_of_not_mem hc' hnot)
        rw [filterOrigin, hfilt]
      · rfl

/-! ## Additions and removals -/

omit [DecidableEq U] in
theorem Inv.relation_ne (h : m.Inv lib R) {id : ℕ}
    (hc : m.CreatedFor lib id c) : c.relation ≠ .neq := by
  rcases hc with ⟨ids, hids, -⟩ | ⟨f, ids, hf, -⟩
  · exact (h.nonlinear c ids hids).1
  · exact (h.linearized c f hf).2

theorem mem_originalsOf_insert {x y : SolverVariable U} {icpVar : IcpVariable U}
    {c' : Constraint (SolverVariable U)} (hx : m.mVariables x = some icpVar) :
    c' ∈ originalsOf { m with
        mVariables := update m.mVariables x (some { icpVar with
          mOriginalConstraints := icpVar.mOriginalConstraints.insert c }) } y ↔
      c' ∈ m.originalsOf y ∨ (y = x ∧ c' = c) := by
  rw [originalsOf_update]
  split_ifs with hy
  · have horigs : m.originalsOf y = icpVar.mOriginalConstraints := by
      rw [hy, originalsOf, hx]
      rfl
    rw [horigs, mem_insert_iff, or_comm]
    exact or_congr_right (and_iff_right hy).symm
  · exact (or_iff_left fun h => hy h.1).symm

theorem addOriginalConstraint_spec
    {xs : List (SolverVariable U)} (h : m.addOriginalConstraint c xs = some m') :
    m' = { m with mVariables := m'.mVariables } ∧ (m.Refers → m'.Refers) ∧
      ∀ x c', c' ∈ m'.originalsOf x ↔ c' ∈ m.originalsOf x ∨ (x ∈ xs ∧ c' = c) := by
  induction xs generalizing m with
  | nil =>
    obtain rfl := Option.some.inj h
    exact ⟨rfl, id, fun x c' => by simp⟩
  | cons y ys ih =>
    rw [addOriginalConstraint] at h
    split at h
    case h_1 => cases h
    case h_2 icpVar hy =>
      obtain ⟨hsame, hrefers, horigs⟩ := ih h
      refine ⟨hsame, fun hm => hrefers fun x icpVar' hx => ?_, fun x c' => ?_⟩
      · dsimp only at hx
        rw [update_apply] at hx
        split_ifs at hx
        · obtain rfl := Option.some.inj hx
          exact hm y icpVar hy
        · exact hm x icpVar' hx
      · rw [horigs, mem_originalsOf_insert hy, mem_cons, or_assoc, or_and_right]

/-- What both additions and removals do first. -/
theorem Inv.original (h : m.Inv lib R) (horig : (if lib.isBound c then some m
      else m.addOriginalConstraint c (Poly.variables c.lhs).dedup) = some m') :
    m'.Inv lib R ∧ ∀ x c', c' ∈ m'.originalsOf x ↔ c' ∈ m.originalsOf x ∨
      (lib.isBound c = false ∧ x ∈ Poly.variables c.lhs ∧ c' = c) := by
  split_ifs at horig with hbd
  · obtain rfl := Option.some.inj horig
    exact ⟨h, fun x c' => (or_iff_left fun h => by rw [hbd] at h; cases h.1).symm⟩
  · obtain ⟨hsame, hrefers, horigs⟩ := addOriginalConstraint_spec horig
    refine ⟨?_, fun x c' => (horigs x c').trans (or_congr_right ?_)⟩
    · rw [hsame]
      exact ⟨hsame ▸ hrefers h.refers, h.nonlinear, h.linear, h.linearized, h.received, h.slack,
        h.origins, h.nodup, h.validation⟩
    · rw [mem_dedup]
      exact (and_iff_right (Bool.eq_false_iff.mpr hbd)).symm

theorem mem_assertLra {g : Constraint (SolverVariable U)} :
    g ∈ (m.assertLra lib f).2.mValidationFormula ↔ g ∈ m.mValidationFormula ∨ g = f := by
  rw [assertLra]
  split_ifs with hf
  · exact ⟨Or.inl, fun h => h.elim id fun heq => heq ▸ hf⟩
  · rw [mem_append, mem_singleton]

theorem nodup_assertLra (h : m.mValidationFormula.Nodup) :
    (m.assertLra lib f).2.mValidationFormula.Nodup := by
  rw [assertLra]
  split_ifs with hf
  · exact h
  · exact nodup_append.mpr ⟨h, nodup_singleton f, fun a ha b hb heq =>
      hf (mem_singleton.mp hb ▸ heq ▸ ha)⟩

theorem assertLra_visited (f : Constraint (SolverVariable U)) (m : ICPModule U S) :
    (m.assertLra lib f).2 =
      { m with mValidationFormula := (m.assertLra lib f).2.mValidationFormula } := by
  rw [assertLra]
  split_ifs <;> rfl

omit [DecidableEq U] in
theorem Visited.refers (h : Visited m m')
    (hlen : m'.mCandidateManager.length = m.mCandidateManager.length) (hm : m.Refers) :
    m'.Refers := by
  rw [Refers, h.sameVariables]
  intro x icpVar hx id hid
  rw [hlen]
  exact hm x icpVar hx id hid

/-- A constraint is received and becomes an origin of its candidates. -/
theorem Inv.insert (h : m.Inv lib R) (hf : m.mLinearizations c = some f)
    (hslack : lib.isBound f = false → (m.mLinearConstraints (lib.getSlackVariable f)).isSome)
    (hvis : Visited m m') (hlen : m'.mCandidateManager.length = m.mCandidateManager.length)
    (horigs : ∀ id cc', m'.mCandidateManager[id]? = some cc' →
      ∃ cc, m.mCandidateManager[id]? = some cc ∧ ∀ c', c' ∈ cc'.mOrigin ↔
        c' ∈ cc.mOrigin ∨ (c' = c ∧ m.CreatedFor lib id c)) :
    Inv lib (m'.assertLra lib f).2 (insert c R) := by
  rw [assertLra_visited]
  refine h.change (hvis.refers hlen) hlen.ge ⟨hvis.nonlinear, hvis.linear,
    hvis.linearizations, hvis.deLinearizations⟩ ?_ ?_ ?_ ?_ ?_
  · rintro c' (rfl | hc')
    · rw [hf]
      exact fun _ => rfl
    · exact h.received c' hc'
  · rintro c' (rfl | hc') f' hf'
    · obtain rfl := Option.some.inj (hf.symm.trans hf')
      exact hslack
    · exact h.slack c' hc' f' hf'
  · intro id cc' hcc' c'
    obtain ⟨cc, hcc, hmem⟩ := horigs id cc' hcc'
    rw [hmem, h.origins id cc hcc, Set.mem_insert_iff]
    constructor
    · rintro (⟨hc', hcrea⟩ | ⟨rfl, hcrea⟩)
      · exact ⟨Or.inr hc', hcrea⟩
      · exact ⟨Or.inl rfl, hcrea⟩
    · rintro ⟨rfl | hc', hcrea⟩
      · exact Or.inr ⟨rfl, hcrea⟩
      · exact Or.inl ⟨hc', hcrea⟩
  · exact nodup_assertLra (hvis.validation ▸ h.nodup)
  · intro g
    rw [mem_assertLra, hvis.validation, h.validation]
    constructor
    · rintro (⟨c', hc', hg⟩ | rfl)
      · exact ⟨c', Or.inr hc', hg⟩
      · exact ⟨c, Or.inl rfl, hf⟩
    · rintro ⟨c', rfl | hc', hg⟩
      · exact Or.inr (Option.some.inj (hg.symm.trans hf))
      · exact Or.inl ⟨c', hc', hg⟩

/-- A constraint is not received any more and is no origin. -/
theorem Inv.remove (h : m.Inv lib R) (hc : c ∈ R)
    (hf : m.mLinearizations c = some f) (hvis : Visited m m')
    (hlen : m'.mCandidateManager.length = m.mCandidateManager.length)
    (horigs : ∀ id cc', m'.mCandidateManager[id]? = some cc' →
      ∃ cc, m.mCandidateManager[id]? = some cc ∧ ∀ c', c' ∈ cc'.mOrigin ↔
        c' ∈ cc.mOrigin ∧ ¬ (c' = c ∧ m.CreatedFor lib id c)) :
    Inv lib { m' with mValidationFormula := m'.mValidationFormula.erase f } (R \ {c}) := by
  refine h.change (hvis.refers hlen) hlen.ge ⟨hvis.nonlinear, hvis.linear,
    hvis.linearizations, hvis.deLinearizations⟩ (fun c' hc' => h.received c' hc'.1)
    (fun c' hc' => h.slack c' hc'.1) ?_ ?_ ?_
  · intro id cc' hcc' c'
    obtain ⟨cc, hcc, hmem⟩ := horigs id cc' hcc'
    rw [hmem, h.origins id cc hcc, Set.mem_sdiff, Set.mem_singleton_iff]
    constructor
    · rintro ⟨⟨hc', hcrea⟩, hnot⟩
      exact ⟨⟨hc', fun heq => hnot ⟨heq, heq ▸ hcrea⟩⟩, hcrea⟩
    · rintro ⟨⟨hc', hne⟩, hcrea⟩
      exact ⟨⟨hc', hcrea⟩, fun hnot => hne hnot.1⟩
  · rw [hvis.validation]
    exact h.nodup.erase f
  · intro g
    rw [hvis.validation, h.nodup.mem_erase_iff, h.validation]
    constructor
    · rintro ⟨hne, c', hc', hg⟩
      refine ⟨c', ⟨hc', ?_⟩, hg⟩
      rintro rfl
      exact hne (Option.some.inj (hg.symm.trans hf))
    · rintro ⟨c', ⟨hc', hne⟩, hg⟩
      refine ⟨?_, c', hc', hg⟩
      rintro rfl
      -- no other constraint has this linearization
      have heq := (h.linearized c' _ hg).1.symm.trans (h.linearized c _ hf).1
      exact hne (Option.some.inj heq)

omit [DecidableEq U] in
/-- Disequalities have no candidates. -/
theorem Inv.setNotEqual (h : m.Inv lib R) (hneq : c.relation = .neq)
    {R' : Set (Constraint (SolverVariable U))} (hR : ∀ c' ≠ c, c' ∈ R' ↔ c' ∈ R)
    (l : List (Constraint (SolverVariable U))) :
    Inv lib { m with mNotEqualConstraints := l } R' := by
  have hR' : ∀ c', c'.relation ≠ .neq → (c' ∈ R' ↔ c' ∈ R) := fun c' hne =>
    hR c' fun heq => hne (heq ▸ hneq)
  refine ⟨h.refers, h.nonlinear, h.linear, h.linearized, fun c hc hne => ?_,
    fun c hc f hf => ?_, fun id cc hcc c => ?_, h.nodup, fun f => ?_⟩
  · exact h.received c ((hR' c hne).mp hc) hne
  · exact h.slack c ((hR' c (h.linearized c f hf).2).mp hc) f hf
  · rw [h.origins id cc hcc c]
    exact and_congr_left fun hcrea => (hR' c (h.relation_ne hcrea)).symm
  · rw [h.validation]
    exact exists_congr fun c => and_congr_left fun hf => (hR' c (h.linearized c f hf).2).symm

omit [DecidableEq U] in
/-- The candidates that the two activations visit. -/
theorem createdFor_iff (hf : m.mLinearizations c = some f) (hbd : lib.isBound f = false)
    (hids : m.mLinearConstraints (lib.getSlackVariable f) = some ids) (id : ℕ) :
    m.CreatedFor lib id c ↔ id ∈ (m.mNonlinearConstraints c).getD [] ∨ id ∈ ids := by
  refine or_congr ?_ ?_
  · cases m.mNonlinearConstraints c <;> simp
  · constructor
    · rintro ⟨f', ids', hf', -, hids', hid⟩
      obtain rfl := Option.some.inj (hf.symm.trans hf')
      exact Option.some.inj (hids.symm.trans hids') ▸ hid
    · exact fun hid => ⟨f, ids, hf, hbd, hids, hid⟩

omit [DecidableEq U] in
theorem createdFor_iff_of_isBound
    (hf : m.mLinearizations c = some f) (hbd : lib.isBound f = true) (id : ℕ) :
    m.CreatedFor lib id c ↔ id ∈ (m.mNonlinearConstraints c).getD [] := by
  rw [CreatedFor, or_iff_left]
  · cases m.mNonlinearConstraints c <;> simp
  · rintro ⟨f', ids, hf', hbd', -⟩
    obtain rfl := Option.some.inj (hf.symm.trans hf')
    rw [hbd] at hbd'
    cases hbd'

/-- The nonlinear candidates of a constraint, none for a linear one. -/
theorem Inv.activateNonlinear_eq (h : m.Inv lib R)
    (hact : (if isLinear c.lhs then some m else m.activateNonlinearConstraint c) = some m') :
    m' = ((m.mNonlinearConstraints c).getD []).foldl (activateNonlinear c) m := by
  split_ifs at hact with hlin
  · obtain rfl := Option.some.inj hact
    cases hids : m.mNonlinearConstraints c with
    | none => rfl
    | some ids =>
      have := (h.nonlinear c ids hids).2.1
      rw [hlin] at this
      cases this
  · obtain ⟨ids, hids, rfl⟩ := Option.map_eq_some_iff.mp hact
    rw [hids]
    rfl

/-- Which origins there are after loops over two lists of candidates. -/
theorem mem_origin_map {cc' : ContractionCandidate U} {o : Option (ContractionCandidate U)}
    {p : Prop} [Decidable p]
    (h : (o.map fun cc => if p then insertOrigin c cc else cc) = some cc') :
    ∃ cc, o = some cc ∧ ∀ c', c' ∈ cc'.mOrigin ↔ c' ∈ cc.mOrigin ∨ (c' = c ∧ p) := by
  obtain ⟨cc, rfl, rfl⟩ := Option.map_eq_some_iff.mp h
  refine ⟨cc, rfl, fun c' => ?_⟩
  split_ifs with hp
  · rw [insertOrigin, mem_insert_iff, or_comm]
    exact or_congr_right (and_iff_left hp).symm
  · exact (or_iff_left fun h => hp h.2).symm

theorem mem_origin_filter {cc' : ContractionCandidate U} {o : Option (ContractionCandidate U)}
    {p : Prop} [Decidable p]
    (h : (o.map fun cc => if p then filterOrigin c cc else cc) = some cc') :
    ∃ cc, o = some cc ∧ ∀ c', c' ∈ cc'.mOrigin ↔ c' ∈ cc.mOrigin ∧ ¬ (c' = c ∧ p) := by
  obtain ⟨cc, rfl, rfl⟩ := Option.map_eq_some_iff.mp h
  refine ⟨cc, rfl, fun c' => ?_⟩
  split_ifs with hp
  · simp [filterOrigin, hp]
  · simp [hp]

/-- `addCore` for a constraint that is no disequality. -/
theorem Inv.addCoreConstraint (h : m.Inv lib R)
    {b : Bool} (hadd : m.addCoreConstraint lib c = some (b, m')) :
    m'.Inv lib (Insert.insert c R) ∧ ∀ x c', c' ∈ m'.originalsOf x ↔ c' ∈ m.originalsOf x ∨
      (c.relation ≠ .neq ∧ lib.isBound c = false ∧ x ∈ Poly.variables c.lhs ∧ c' = c) := by
  rw [ICPModule.addCoreConstraint] at hadd
  by_cases hneq : c.relation = .neq
  case pos =>
    rw [if_pos hneq] at hadd
    obtain ⟨-, rfl⟩ := Prod.mk.inj (Option.some.inj hadd)
    exact ⟨h.setNotEqual hneq (fun c' hne => or_iff_right hne) _,
      fun x c' => (or_iff_left fun h => h.1 hneq).symm⟩
  case neg =>
    rw [if_neg hneq] at hadd
    obtain ⟨m₁, horig, hadd⟩ := Option.bind_eq_some_iff.mp hadd
    obtain ⟨h₁, horigs⟩ := h.original horig
    obtain ⟨m₂, hact, hadd⟩ := Option.bind_eq_some_iff.mp hadd
    have hm₂ := h₁.activateNonlinear_eq hact
    obtain ⟨hvis, hlen, hget⟩ := foldl_visit (insertOrigin_insertOrigin c)
      (activateNonlinear_visit c) ((m₁.mNonlinearConstraints c).getD []) m₁
    rw [← hm₂] at hvis hlen hget
    obtain ⟨f, hf, hadd⟩ := Option.bind_eq_some_iff.mp hadd
    rw [hvis.linearizations] at hf
    have hkeep : ∀ m₃ : ICPModule U S, m₃.mVariables = m₂.mVariables → ∀ x c',
        c' ∈ m₃.originalsOf x ↔ c' ∈ m.originalsOf x ∨
          (c.relation ≠ .neq ∧ lib.isBound c = false ∧ x ∈ Poly.variables c.lhs ∧ c' = c) := by
      intro m₃ hm₃ x c'
      have heq : m₃.originalsOf x = m₁.originalsOf x := by
        rw [originalsOf, originalsOf, hm₃, hvis.sameVariables]
      rw [heq, horigs]
      exact or_congr_right (and_iff_right hneq).symm
    split_ifs at hadd with hbd
    case pos =>
      have heq : (m₂.assertLra lib f).2 = m' := congrArg Prod.snd (Option.some.inj hadd)
      rw [← heq]
      refine ⟨h₁.insert hf (fun h => absurd hbd (by rw [h]; exact nofun)) hvis hlen
        fun id cc' hcc' => ?_, hkeep _ ?_⟩
      · rw [hget] at hcc'
        obtain ⟨cc, hcc, hmem⟩ := mem_origin_map hcc'
        refine ⟨cc, hcc, fun c' => (hmem c').trans (or_congr_right (and_congr_right fun _ => ?_))⟩
        exact (createdFor_iff_of_isBound hf hbd id).symm
      · rw [assertLra_visited]
    case neg =>
      obtain ⟨m₃, hlin, heq⟩ := Option.map_eq_some_iff.mp hadd
      obtain ⟨-, rfl⟩ := Prod.mk.inj heq
      obtain ⟨ids, hids, rfl⟩ := Option.map_eq_some_iff.mp hlin
      obtain ⟨hvis', hlen', hget'⟩ := foldl_visit (insertOrigin_insertOrigin c)
        (activateLinear_visit c) ids m₂
      rw [hvis.linear] at hids
      have hbd : lib.isBound f = false := Bool.eq_false_iff.mpr hbd
      refine ⟨h₁.insert hf (fun _ => by rw [hids]; rfl) (hvis.trans hvis')
        (hlen'.trans hlen) fun id cc' hcc' => ?_, hkeep _ ?_⟩
      · rw [hget'] at hcc'
        obtain ⟨cc₂, hcc₂, hmem₂⟩ := mem_origin_map hcc'
        rw [hget] at hcc₂
        obtain ⟨cc, hcc, hmem⟩ := mem_origin_map hcc₂
        refine ⟨cc, hcc, fun c' => ?_⟩
        rw [hmem₂, hmem, or_assoc, ← and_or_left, createdFor_iff hf hbd hids]
      · rw [assertLra_visited]
        exact hvis'.sameVariables

/-- `removeCore` for a received constraint. -/
theorem Inv.removeCoreConstraint (h : m.Inv lib R)
    (hc : c ∈ R) (hrem : m.removeCoreConstraint lib c = some m') :
    m'.Inv lib (R \ {c}) ∧ ∀ x c', c' ∈ m'.originalsOf x ↔ c' ∈ m.originalsOf x ∨
      (c.relation ≠ .neq ∧ lib.isBound c = false ∧ x ∈ Poly.variables c.lhs ∧ c' = c) := by
  rw [ICPModule.removeCoreConstraint] at hrem
  by_cases hneq : c.relation = .neq
  case pos =>
    rw [if_pos hneq] at hrem
    obtain rfl := Option.some.inj hrem
    exact ⟨h.setNotEqual hneq (fun c' hne => and_iff_left hne) _,
      fun x c' => (or_iff_left fun h => h.1 hneq).symm⟩
  case neg =>
    rw [if_neg hneq] at hrem
    obtain ⟨m₁, horig, hrem⟩ := Option.bind_eq_some_iff.mp hrem
    obtain ⟨h₁, horigs⟩ := h.original horig
    obtain ⟨hvis, hlen, hget⟩ := foldl_visit (filterOrigin_filterOrigin c)
      (deactivateNonlinear_visit c) ((m₁.mNonlinearConstraints c).getD []) m₁
    obtain ⟨f, hf, rfl⟩ := Option.map_eq_some_iff.mp hrem
    rw [hvis.linearizations] at hf
    obtain ⟨hvis', hlen', hget'⟩ := foldl_visit (filterOrigin_filterOrigin c)
      (deactivateLinear_visit c)
      ((m₁.mLinearConstraints (lib.getSlackVariable f)).getD [])
      (((m₁.mNonlinearConstraints c).getD []).foldl (deactivateNonlinear c) m₁)
    rw [← hvis.linear] at hvis' hlen' hget'
    refine ⟨h₁.remove hc hf (hvis.trans hvis') (hlen'.trans hlen)
      fun id cc' hcc' => ?_, fun x c' => ?_⟩
    · rw [hget'] at hcc'
      obtain ⟨cc₂, hcc₂, hmem₂⟩ := mem_origin_filter hcc'
      rw [hget] at hcc₂
      obtain ⟨cc, hcc, hmem⟩ := mem_origin_filter hcc₂
      refine ⟨cc, hcc, fun c' => ?_⟩
      rw [hmem₂, hmem, and_assoc, ← not_or, ← and_or_left]
      refine and_congr_right fun hc' => not_congr (and_congr_right ?_)
      rintro rfl
      -- the origin is one of those that the candidate was created for
      have hcrea := ((h₁.origins id cc hcc c').mp hc').2
      refine iff_of_true ?_ hcrea
      rw [hvis.linear]
      cases hbd : lib.isBound f with
      | true => exact Or.inl ((createdFor_iff_of_isBound hf hbd id).mp hcrea)
      | false =>
        obtain ⟨ids, hids⟩ := Option.isSome_iff_exists.mp (h₁.slack c' hc f hf hbd)
        rw [hids]
        exact (createdFor_iff hf hbd hids id).mp hcrea
    · have heq := (congrFun hvis'.sameVariables x).trans (congrFun hvis.sameVariables x)
      rw [originalsOf]
      dsimp only
      rw [heq, ← originalsOf, horigs]
      exact or_congr_right (and_iff_right hneq).symm

/-! ## Checks -/

theorem addBoundaries_spec {fs added l : List (Constraint (SolverVariable U))}
    {r : List (Constraint (SolverVariable U)) × List (Constraint (SolverVariable U))}
    {l₀ : List (Constraint (SolverVariable U))} (hl : l = l₀ ++ added) (hnodup : l.Nodup)
    (hr : addBoundaries fs (added, l) = r) : r.2 = l₀ ++ r.1 ∧ r.2.Nodup := by
  induction fs generalizing added l with
  | nil =>
    obtain rfl := hr
    exact ⟨hl, hnodup⟩
  | cons f fs ih =>
    rw [addBoundaries] at hr
    split_ifs at hr with hf
    · exact ih hl hnodup hr
    · refine ih (by rw [hl, append_assoc]) ?_ hr
      exact nodup_append.mpr ⟨hnodup, nodup_singleton f, fun a ha b hb heq =>
        hf (mem_singleton.mp hb ▸ heq ▸ ha)⟩

/-- The bounds of a box are removed again. -/
theorem checkBox_spec (hnodup : m.mValidationFormula.Nodup)
    (boundaries : List (Constraint (SolverVariable U))) :
    (m.checkBox boundaries).mValidationFormula.Nodup ∧
      ∀ f, f ∈ (m.checkBox boundaries).mValidationFormula ↔ f ∈ m.mValidationFormula := by
  obtain ⟨happend, hnodup'⟩ := addBoundaries_spec (append_nil _).symm hnodup
    (rfl : addBoundaries boundaries ([], m.mValidationFormula) = _)
  have heq : (m.checkBox boundaries).mValidationFormula =
      (addBoundaries boundaries ([], m.mValidationFormula)).2.diff
        (addBoundaries boundaries ([], m.mValidationFormula)).1 :=
    (diff_eq_foldl _ _).symm
  rw [heq]
  refine ⟨hnodup'.diff, fun f => ?_⟩
  rw [hnodup'.mem_sdiff_iff, happend, mem_append]
  rw [happend, nodup_append] at hnodup'
  constructor
  · rintro ⟨hf | hf, hnot⟩
    · exact hf
    · exact absurd hf hnot
  · exact fun hf => ⟨Or.inl hf, fun hadded => hnodup'.2.2 f hf f hadded rfl⟩

theorem Inv.checkCore (h : m.Inv lib R) (boxes : List (List (Constraint (SolverVariable U)))) :
    (m.checkCore boxes).Inv lib R ∧ (m.checkCore boxes).mVariables = m.mVariables := by
  induction boxes generalizing m with
  | nil => exact ⟨h, rfl⟩
  | cons boundaries boxes ih =>
    obtain ⟨hnodup, hmem⟩ := checkBox_spec h.nodup boundaries
    have hinv : (m.checkBox boundaries).Inv lib R :=
      ⟨h.refers, h.nonlinear, h.linear, h.linearized, h.received, h.slack, h.origins, hnodup,
        fun f => (hmem f).trans (h.validation f)⟩
    exact ih hinv

end DecidableEq

end ICPModule

end Smtrat.ICP

namespace Smtrat.ICP

open SparsePoly PropFormula List Function

universe u v w

variable {U : Type u} {B : Type v} {S : Type w}

/-- The module with the formulas it has received. -/
structure State (U : Type u) (B : Type v) (S : Type w) where
  module : ICPModule U S
  received : List (Formula (Atom (SolverVariable U) B))

inductive Action (U : Type u) (B : Type v) where
  | inform (c : Constraint (SolverVariable U))
  | add (formula : Formula (Atom (SolverVariable U) B))
  | remove (formula : Formula (Atom (SolverVariable U) B))
  /-- The bounds of the boxes that a check comes to are given. -/
  | check (boxes : List (List (Constraint (SolverVariable U))))

namespace State

def initial : State U B S := ⟨.initial, []⟩

/-- The received formulas that are constraints. -/
def constraints (s : State U B S) : Set (Constraint (SolverVariable U)) :=
  {c | .atom (.constraint c) ∈ s.received}

section DecidableEq

variable [DecidableEq U] [DecidableEq B] [DecidableEq S]

/-- A formula is added once, and only received formulas are removed. -/
def step (lib : Library U B S) (s : State U B S) : Action U B → Option (State U B S)
  | .inform c => (s.module.informCore lib c).map fun m => { s with module := m }
  | .add formula =>
    if formula ∈ s.received then none
    else (s.module.addCore lib formula).map fun r => ⟨r.2, formula :: s.received⟩
  | .remove formula =>
    if formula ∈ s.received then
      (s.module.removeCore lib formula).map fun m => ⟨m, s.received.filter (· ≠ formula)⟩
    else none
  | .check boxes => some { s with module := s.module.checkCore boxes }

end DecidableEq

/-- Which constraint belongs to which candidate, to the LRA module and to which variable. -/
structure Bookkeeping (lib : Library U B S) (s : State U B S) : Prop where
  active : ∀ id cc, s.module.mCandidateManager[id]? = some cc →
    (cc.isActive = true ↔ ∃ c ∈ s.constraints, s.module.CreatedFor lib id c)
  origins : ∀ id cc, s.module.mCandidateManager[id]? = some cc →
    ∀ c, c ∈ cc.mOrigin ↔ c ∈ s.constraints ∧ s.module.CreatedFor lib id c
  validation : ∀ f, f ∈ s.module.mValidationFormula ↔
    ∃ c ∈ s.constraints, c.relation ≠ .neq ∧ s.module.mLinearizations c = some f
  originals : ∀ x c, c ∈ s.module.originalsOf x ↔ c ∈ s.constraints ∧
    x ∈ Poly.variables c.lhs ∧ lib.isBound c = false ∧ c.relation ≠ .neq

/-! ## The invariant -/

/-- The constraints that have been added are the original ones of their variables. -/
structure Inv (lib : Library U B S) (s : State U B S)
    (added : Set (Constraint (SolverVariable U))) : Prop where
  module : s.module.Inv lib s.constraints
  received : s.constraints ⊆ added
  originals : ∀ x c, c ∈ s.module.originalsOf x ↔ c ∈ added ∧
    x ∈ Poly.variables c.lhs ∧ lib.isBound c = false ∧ c.relation ≠ .neq

variable {lib : Library U B S} {s s' : State U B S} {added : Set (Constraint (SolverVariable U))}

theorem Inv.initial : (State.initial : State U B S).Inv lib ∅ where
  module := {
    refers := nofun
    nonlinear := nofun
    linear := nofun
    linearized := nofun
    received := nofun
    slack := nofun
    origins := nofun
    nodup := nodup_nil
    validation := fun _ => iff_of_false not_mem_nil fun ⟨_, hc, _⟩ => not_mem_nil hc }
  received := nofun
  originals _ _ := iff_of_false not_mem_nil fun h => h.1

/-- The bookkeeping is right up to constraints that are not received any more. -/
theorem Inv.bookkeeping_iff (h : s.Inv lib added) : s.Bookkeeping lib ↔
    ∀ c ∈ added, lib.isBound c = false → c.relation ≠ .neq → Poly.variables c.lhs ≠ [] →
      c ∈ s.constraints := by
  constructor
  · intro hbook c hc hbd hneq hvars
    obtain ⟨x, hx⟩ := exists_mem_of_ne_nil _ hvars
    exact ((hbook.originals x c).mp ((h.originals x c).mpr ⟨hc, hx, hbd, hneq⟩)).1
  · intro hkept
    constructor
    case active =>
      intro id cc hcc
      have hact : cc.isActive = true ↔ ∃ c, c ∈ cc.mOrigin := by
        rw [ContractionCandidate.isActive, Bool.not_eq_true', isEmpty_eq_false_iff_exists_mem]
      rw [hact]
      exact exists_congr fun c => h.module.origins id cc hcc c
    case origins => exact h.module.origins
    case validation =>
      intro f
      rw [h.module.validation]
      refine exists_congr fun c => and_congr_right fun _ => ⟨fun hf => ?_, And.right⟩
      exact ⟨(h.module.linearized c f hf).2, hf⟩
    case originals =>
      intro x c
      rw [h.originals]
      constructor
      · rintro ⟨hc, hx, hbd, hneq⟩
        exact ⟨hkept c hc hbd hneq (ne_nil_of_mem hx), hx, hbd, hneq⟩
      · rintro ⟨hc, hrest⟩
        exact ⟨h.received hc, hrest⟩

/-! ## Steps -/

section DecidableEq

variable [DecidableEq U] [DecidableEq B] [DecidableEq S]

/-- The constraints that have been added after an action. -/
def addedBy (added : Set (Constraint (SolverVariable U))) (a : Action U B) :
    Set (Constraint (SolverVariable U)) :=
  {c | c ∈ added ∨ a = .add (.atom (.constraint c))}

omit [DecidableEq B] [DecidableEq S] in
theorem Inv.add (h : s.Inv lib added) {formula : Formula (Atom (SolverVariable U) B)} {b : Bool}
    {m : ICPModule U S} (hadd : s.module.addCore lib formula = some (b, m)) :
    Inv lib ⟨m, formula :: s.received⟩ (addedBy added (.add formula)) := by
  by_cases hcon : ∃ c, formula = .atom (.constraint c)
  · obtain ⟨c, rfl⟩ := hcon
    obtain ⟨hinv, horigs⟩ := h.module.addCoreConstraint hadd
    have hadded : addedBy added (Action.add (.atom (.constraint c)) : Action U B) =
        insert c added := by
      ext c'
      simp [addedBy, or_comm, eq_comm]
    have hrec : constraints ⟨m, .atom (.constraint c) :: s.received⟩ = insert c s.constraints := by
      ext c'
      simp [constraints]
    rw [hadded]
    refine ⟨hrec ▸ hinv, ?_, fun x c' => ?_⟩
    · rw [hrec]
      exact Set.insert_subset_insert h.received
    · rw [horigs, h.originals, Set.mem_insert_iff]
      constructor
      · rintro (⟨hc', hrest⟩ | ⟨hneq, hbd, hx, rfl⟩)
        · exact ⟨Or.inr hc', hrest⟩
        · exact ⟨Or.inl rfl, hx, hbd, hneq⟩
      · rintro ⟨rfl | hc', hx, hbd, hneq⟩
        · exact Or.inr ⟨hneq, hbd, hx, rfl⟩
        · exact Or.inl ⟨hc', hx, hbd, hneq⟩
  · have hm : m = s.module := by
      unfold ICPModule.addCore at hadd
      split at hadd
      · exact (congrArg Prod.snd (Option.some.inj hadd)).symm
      · exact absurd ⟨_, rfl⟩ hcon
      · exact (congrArg Prod.snd (Option.some.inj hadd)).symm
    have hadded : addedBy added (Action.add formula) = added := by
      ext c
      exact or_iff_left fun heq => hcon ⟨c, Action.add.inj heq⟩
    have hrec : constraints ⟨m, formula :: s.received⟩ = s.constraints := by
      ext c
      refine mem_cons.trans (or_iff_right fun heq => hcon ⟨c, heq.symm⟩)
    rw [hadded]
    subst hm
    exact ⟨hrec ▸ h.module, hrec ▸ h.received, h.originals⟩

omit [DecidableEq S] in
theorem Inv.remove (h : s.Inv lib added) {formula : Formula (Atom (SolverVariable U) B)}
    (hmem : formula ∈ s.received) {m : ICPModule U S}
    (hrem : s.module.removeCore lib formula = some m) :
    Inv lib ⟨m, s.received.filter (· ≠ formula)⟩ added := by
  by_cases hcon : ∃ c, formula = .atom (.constraint c)
  · obtain ⟨c, rfl⟩ := hcon
    have hc : c ∈ s.constraints := hmem
    obtain ⟨hinv, horigs⟩ := h.module.removeCoreConstraint hc hrem
    have hrec : constraints ⟨m, s.received.filter (· ≠ .atom (.constraint c))⟩ =
        s.constraints \ {c} := by
      ext c'
      simp [constraints]
    refine ⟨hrec ▸ hinv, ?_, fun x c' => ?_⟩
    · rw [hrec]
      exact Set.sdiff_subset.trans h.received
    · rw [horigs, h.originals, or_iff_left_of_imp]
      rintro ⟨hneq, hbd, hx, rfl⟩
      exact ⟨h.received hc, hx, hbd, hneq⟩
  · have hm : m = s.module := by
      unfold ICPModule.removeCore at hrem
      split at hrem
      · exact absurd ⟨_, rfl⟩ hcon
      · exact (Option.some.inj hrem).symm
    have hrec : constraints ⟨m, s.received.filter (· ≠ formula)⟩ = s.constraints := by
      ext c
      refine mem_filter.trans (and_iff_left (decide_eq_true fun heq => ?_))
      exact hcon ⟨c, heq.symm⟩
    subst hm
    exact ⟨hrec ▸ h.module, hrec ▸ h.received, h.originals⟩

theorem Inv.step (h : s.Inv lib added) {a : Action U B} (hstep : step lib s a = some s') :
    s'.Inv lib (addedBy added a) := by
  have hother (hadd : ∀ formula, a ≠ .add formula) : addedBy added a = added := by
    ext c
    exact or_iff_left (hadd _)
  cases a with
  | inform c =>
    obtain ⟨m, hinform, rfl⟩ := Option.map_eq_some_iff.mp hstep
    obtain ⟨hinv, horigs⟩ := h.module.informCore hinform
    rw [hother nofun]
    refine ⟨hinv, h.received, fun x c' => ?_⟩
    dsimp only
    rw [horigs]
    exact h.originals x c'
  | add formula =>
    rw [State.step] at hstep
    split_ifs at hstep
    obtain ⟨⟨b, m⟩, hadd, rfl⟩ := Option.map_eq_some_iff.mp hstep
    exact h.add hadd
  | remove formula =>
    rw [State.step] at hstep
    split_ifs at hstep with hmem
    obtain ⟨m, hrem, rfl⟩ := Option.map_eq_some_iff.mp hstep
    rw [hother nofun]
    exact h.remove hmem hrem
  | check boxes =>
    obtain rfl := Option.some.inj hstep
    obtain ⟨hinv, hvars⟩ := h.module.checkCore boxes
    rw [hother nofun]
    refine ⟨hinv, h.received, fun x c => ?_⟩
    rw [ICPModule.originalsOf]
    dsimp only
    rw [hvars]
    exact h.originals x c

theorem Inv.run {as : List (Action U B)} (h : s.Inv lib added)
    (hrun : Run.run (State.step lib) s as = some s') :
    s'.Inv lib {c | c ∈ added ∨ .add (.atom (.constraint c)) ∈ as} := by
  induction as generalizing s added with
  | nil =>
    obtain rfl := Option.some.inj hrun
    simpa using h
  | cons a as ih =>
    obtain ⟨s₁, hstep, hrun⟩ := Run.run_cons.mp hrun
    have hs' := ih (h.step hstep) hrun
    have hset : {c | c ∈ addedBy added a ∨ .add (.atom (.constraint c)) ∈ as} =
        {c | c ∈ added ∨ Action.add (.atom (.constraint c)) ∈ a :: as} := by
      ext c
      simp only [addedBy, Set.mem_ofPred_eq, mem_cons]
      rw [or_assoc, eq_comm]
    exact hset ▸ hs'

/-- The bookkeeping is right if and only if every constraint with a variable that has been added,
other than bounds and disequalities, is still received. -/
theorem bookkeeping_iff_kept (lib : Library U B S) (as : List (Action U B)) (s : State U B S)
    (hrun : Run.run (State.step lib) State.initial as = some s) :
    s.Bookkeeping lib ↔ ∀ c, .add (.atom (.constraint c)) ∈ as → lib.isBound c = false →
      c.relation ≠ .neq → Poly.variables c.lhs ≠ [] → c ∈ s.constraints := by
  have hinv := Inv.initial.run hrun
  rw [hinv.bookkeeping_iff]
  simp only [Set.mem_empty_iff_false, false_or, Set.mem_ofPred_eq]

end DecidableEq

/-! ## A removal -/

section Examples

/-- Each linear expression is its slack variable, and the LRA module finds no conflicts. -/
def sums : Library ℕ ℕ (Poly (SolverVariable ℕ) ℚ) where
  int _ := false
  pool := .verbatim _ _
  isConsistent _ := 2
  isBound c := isLinear c.lhs && (Poly.variables c.lhs).dedup.length = 1
  getSlackVariable f := f.lhs
  expression := id
  add _ _ := true

/-- The constraint `x + y ≤ 0`. -/
def sumConstraint : Constraint (SolverVariable ℕ) :=
  ⟨Poly.add (Poly.var (.user 0)) (Poly.var (.user 1)), .leq⟩

/-- A constraint is added and removed. -/
def addAndRemove : List (Action ℕ ℕ) :=
  [.inform sumConstraint, .add (.atom (.constraint sumConstraint)),
    .remove (.atom (.constraint sumConstraint))]

theorem bookkeeping_iff_kept_addAndRemove :
    ∃ s, Run.run (State.step sums) State.initial addAndRemove = some s ∧
      (s.Bookkeeping sums ↔ ∀ c, .add (.atom (.constraint c)) ∈ addAndRemove →
        sums.isBound c = false → c.relation ≠ .neq → Poly.variables c.lhs ≠ [] →
          c ∈ s.constraints) :=
  ⟨_, rfl, bookkeeping_iff_kept sums _ _ rfl⟩

/-- The constraint stays an original constraint of its variables. -/
theorem not_bookkeeping_all : ¬ ∀ (as : List (Action ℕ ℕ)) (s : State ℕ ℕ _),
    Run.run (State.step sums) State.initial as = some s → s.Bookkeeping sums := by
  intro h
  obtain ⟨s, hrun, hrec⟩ : ∃ s, Run.run (State.step sums) State.initial addAndRemove = some s ∧
      s.received = [] := ⟨_, rfl, by decide +kernel⟩
  have hbook := h _ s hrun
  have horig : sumConstraint ∈ s.module.originalsOf (.user 0) :=
    ((Inv.initial.run hrun).originals _ _).mpr
      ⟨Or.inr (mem_cons_of_mem _ mem_cons_self), by decide +kernel⟩
  have hmem := ((hbook.originals _ _).mp horig).1
  rw [constraints, hrec] at hmem
  exact not_mem_nil hmem

end Examples

end State

end Smtrat.ICP
