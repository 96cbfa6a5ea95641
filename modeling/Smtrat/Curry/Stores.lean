import Smtrat.Curry.CurryModule

/-!
# The stores

The stores only grow, and what they hold for a term is determined by the names of its variables,
functions and applications.  Every interpretation of the received terms can be extended to these
names.
-/

namespace Smtrat.Curry
open List Function Option

universe u

variable {Var F S : Type u}

namespace Stores

/-! ## Names -/

mutual

/-- The curried form of a term. -/
inductive Curried (s : Stores Var F) : UTerm Var F → CurryTerm → Prop
  | var {v : Var} {n : ℕ} : s.termStore (.var v) = some (.var n) → Curried s (.var v) (.var n)
  | inst {f : F} {n : ℕ} {args : List (UTerm Var F)} {res : CurryTerm} :
      s.constantsStore f = some (.var n) → CurriedArgs s (.var n) args res →
        Curried s (.inst f args) res

/-- The application of a curried term to curried arguments. -/
inductive CurriedArgs (s : Stores Var F) : CurryTerm → List (UTerm Var F) → CurryTerm → Prop
  | nil (sub : CurryTerm) : CurriedArgs s sub [] sub
  | cons {sub c res : CurryTerm} {arg : UTerm Var F} {args : List (UTerm Var F)} :
      Curried s arg c → CurriedArgs s (.app sub c) args res → CurriedArgs s sub (arg :: args) res

end

/-- The name of a curried term, with the equalities that define it. -/
inductive Flat (s : Stores Var F) : CurryTerm → ℕ → List CurryEquality → Prop
  | var (n : ℕ) : Flat s (.var n) n []
  | app {l r : CurryTerm} {n nl nr : ℕ} {dl dr : List CurryEquality} :
      s.flattenedTerms (.app l r) = some n → Flat s l nl dl → Flat s r nr dr →
        Flat s (.app l r) n (dl ++ dr ++ [⟨.app (.var nl) (.var nr), .var n, false⟩])

def CurriedEquality (s : Stores Var F) (e : UEquality Var F) (c : CurryEquality) : Prop :=
  s.Curried e.lhs c.lhs ∧ s.Curried e.rhs c.rhs ∧ c.negated = e.negated

def FlatEquality (s : Stores Var F) (c : CurryEquality) (eqs : List CurryEquality) : Prop :=
  ∃ nl dl nr dr, s.Flat c.lhs nl dl ∧ s.Flat c.rhs nr dr ∧
    eqs = dl ++ dr ++ [⟨.var nl, .var nr, c.negated⟩]

/-- The names in the stores stay. -/
structure Extends (s t : Stores Var F) : Prop where
  vars : ∀ {v c}, s.termStore (.var v) = some c → t.termStore (.var v) = some c
  constants : ∀ {f c}, s.constantsStore f = some c → t.constantsStore f = some c
  flattened : ∀ {c n}, s.flattenedTerms c = some n → t.flattenedTerms c = some n

variable {s t : Stores Var F}

theorem Extends.refl (s : Stores Var F) : Extends s s := ⟨id, id, id⟩

theorem Extends.trans {u : Stores Var F} (h : Extends s t) (h' : Extends t u) : Extends s u :=
  ⟨fun hv => h'.vars (h.vars hv), fun hf => h'.constants (h.constants hf),
    fun hc => h'.flattened (h.flattened hc)⟩

variable {args : List (UTerm Var F)} {res sub : CurryTerm}

theorem curriedArgs_mono (ih : ∀ t' ∈ args, ∀ c, s.Curried t' c → t.Curried t' c)
    (h : s.CurriedArgs sub args res) : t.CurriedArgs sub args res := by
  induction args generalizing sub with
  | nil =>
    cases h
    exact .nil _
  | cons arg args ihl =>
    cases h with
    | cons harg hargs =>
      exact .cons (ih arg mem_cons_self _ harg)
        (ihl (fun t' ht' => ih t' (mem_cons_of_mem arg ht')) hargs)

variable {c : CurryTerm} {t' : UTerm Var F}

theorem Curried.mono (hst : Extends s t) (h : s.Curried t' c) :
    t.Curried t' c := by
  induction t' using UTerm.induction generalizing c with
  | hvar v =>
    cases h with
    | var hv => exact .var (hst.vars hv)
  | hinst f args ih =>
    cases h with
    | inst hf hargs =>
      exact .inst (hst.constants hf) (curriedArgs_mono (fun t' ht' c => ih t' ht') hargs)

variable {n : ℕ} {defs : List CurryEquality}

theorem Flat.mono (hst : Extends s t) (h : s.Flat c n defs) : t.Flat c n defs := by
  induction h with
  | var n => exact .var n
  | app hn _ _ ihl ihr => exact .app (hst.flattened hn) ihl ihr

variable {e : UEquality Var F}

theorem CurriedEquality.mono (hst : Extends s t) {c : CurryEquality}
    (h : s.CurriedEquality e c) : t.CurriedEquality e c :=
  ⟨h.1.mono hst, h.2.1.mono hst, h.2.2⟩

variable {eqs : List CurryEquality}

theorem FlatEquality.mono (hst : Extends s t) {c : CurryEquality}
    (h : s.FlatEquality c eqs) : t.FlatEquality c eqs := by
  obtain ⟨nl, dl, nr, dr, hl, hr, rfl⟩ := h
  exact ⟨nl, dl, nr, dr, hl.mono hst, hr.mono hst, rfl⟩

theorem curriedArgs_unique
    (ih : ∀ t' ∈ args, ∀ c c', s.Curried t' c → s.Curried t' c' → c = c') {res' : CurryTerm}
    (h : s.CurriedArgs sub args res) (h' : s.CurriedArgs sub args res') : res = res' := by
  induction args generalizing sub with
  | nil =>
    cases h
    cases h'
    rfl
  | cons arg args ihl =>
    cases h with
    | cons harg hargs =>
      cases h' with
      | cons harg' hargs' =>
        obtain rfl := ih arg mem_cons_self _ _ harg harg'
        exact ihl (fun t' ht' => ih t' (mem_cons_of_mem arg ht')) hargs hargs'

/-- A term has one curried form. -/
theorem Curried.unique {c' : CurryTerm} (h : s.Curried t' c) (h' : s.Curried t' c') : c = c' := by
  induction t' using UTerm.induction generalizing c c' with
  | hvar v =>
    cases h with
    | var hv =>
      cases h' with
      | var hv' => exact some.inj (hv.symm.trans hv')
  | hinst f args ih =>
    cases h with
    | inst hf hargs =>
      cases h' with
      | inst hf' hargs' =>
        obtain rfl := CurryTerm.var.inj (some.inj (hf.symm.trans hf'))
        exact curriedArgs_unique (fun t' ht' c c' => ih t' ht') hargs hargs'

/-- A curried term has one name, with one list of definitions. -/
theorem Flat.unique {n' : ℕ} {defs' : List CurryEquality}
    (h : s.Flat c n defs) (h' : s.Flat c n' defs') : n = n' ∧ defs = defs' := by
  induction h generalizing n' defs' with
  | var n =>
    cases h'
    exact ⟨rfl, rfl⟩
  | app hn _ _ ihl ihr =>
    cases h' with
    | app hn' hl hr =>
      obtain rfl := some.inj (hn.symm.trans hn')
      obtain ⟨rfl, rfl⟩ := ihl hl
      obtain ⟨rfl, rfl⟩ := ihr hr
      exact ⟨rfl, rfl⟩

theorem CurriedEquality.unique {c c' : CurryEquality}
    (h : s.CurriedEquality e c) (h' : s.CurriedEquality e c') : c = c' := by
  obtain ⟨lhs, rhs, negated⟩ := c
  obtain ⟨lhs', rhs', negated'⟩ := c'
  obtain rfl : lhs = lhs' := h.1.unique h'.1
  obtain rfl : rhs = rhs' := h.2.1.unique h'.2.1
  obtain rfl : negated = negated' := h.2.2.trans h'.2.2.symm
  rfl

theorem FlatEquality.unique {c : CurryEquality} {eqs' : List CurryEquality}
    (h : s.FlatEquality c eqs) (h' : s.FlatEquality c eqs') : eqs = eqs' := by
  obtain ⟨nl, dl, nr, dr, hl, hr, rfl⟩ := h
  obtain ⟨nl', dl', nr', dr', hl', hr', rfl⟩ := h'
  obtain ⟨rfl, rfl⟩ := hl.unique hl'
  obtain ⟨rfl, rfl⟩ := hr.unique hr'
  rfl

/-! ## The values of names -/

variable {f : F}

section Interpretation

variable {sig : Signature Var F S} (I : Interpretation sig)

/-- The values of curried terms: values of terms, functions that miss arguments, and one value for
names without a meaning. -/
abbrev CurryValue : Type u := I.Value ⊕ Option (F × List I.Value)

/-- The value of a function with some of its arguments. -/
def applied (f : F) (args : List I.Value) : CurryValue I :=
  if args.length = sig.arity f then .inl ⟨sig.codomain f, I.app f args⟩
  else .inr (some (f, args))

/-- The curry function appends an argument. -/
def applyValue : CurryValue I → CurryValue I → CurryValue I
  | .inr (some (f, args)), .inl v => applied I f (args ++ [v])
  | x, _ => x

/-- The model of the curry sort that an interpretation and the values of the names give. -/
def curryModel (value : ℕ → CurryValue I) : CurryModel.{u} := ⟨CurryValue I, applyValue I, value⟩

/-- The names have the values that they stand for. -/
structure Realizes (value : ℕ → CurryValue I) (s : Stores Var F) : Prop where
  vars : ∀ {v n}, s.termStore (.var v) = some (.var n) → value n = .inl ⟨sig.sortOf v, I.var v⟩
  constants : ∀ {f n}, s.constantsStore f = some (.var n) → value n = applied I f []
  flattened : ∀ {l r n}, s.flattenedTerms (.app l r) = some n →
    value n = (curryModel I value).eval (.app l r)

variable {I} {value : ℕ → CurryValue I}

theorem curriedArgs_eval (ih : ∀ t' ∈ args, ∀ c, s.Curried t' c →
      (curryModel I value).eval c = Sum.inl (I.eval t')) {vs : List I.Value} (h : s.CurriedArgs sub args res)
    (hlen : vs.length + args.length = sig.arity f)
    (hsub : (curryModel I value).eval sub = applied I f vs) :
    (curryModel I value).eval res = applied I f (vs ++ args.map I.eval) := by
  induction args generalizing vs sub with
  | nil =>
    cases h
    rw [map_nil, append_nil]
    exact hsub
  | cons arg args ihl =>
    cases h with
    | cons harg hargs =>
      rw [length_cons] at hlen
      have hmissing : applied I f vs = .inr (some (f, vs)) := if_neg (by omega)
      rw [hmissing] at hsub
      have hlen' : (vs ++ [I.eval arg]).length + args.length = sig.arity f := by
        rw [length_append, length_singleton]
        omega
      have hrest := ihl (fun t' ht' => ih t' (mem_cons_of_mem arg ht')) hargs hlen' (by
        rw [CurryModel.eval_app, hsub, ih arg mem_cons_self _ harg]
        rfl)
      rw [hrest, map_cons, append_assoc, singleton_append]

/-- A curried term has the value of the term. -/
theorem Curried.eval (hrealizes : Realizes I value s)
    (h : s.Curried t' c) (hwf : t'.WellFormed sig) :
    (curryModel I value).eval c = Sum.inl (I.eval t') := by
  induction t' using UTerm.induction generalizing c with
  | hvar v =>
    cases h with
    | var hv =>
      rw [Interpretation.eval_var]
      exact hrealizes.vars hv
  | hinst f args ih =>
    cases hwf with
    | inst hlen hargsWf =>
      cases h with
      | inst hf hargs =>
        have hval : (curryModel I value).eval c = applied I f ([] ++ args.map I.eval) :=
          curriedArgs_eval (fun t' ht' c hc => ih t' ht' hc (hargsWf t' ht')) hargs
            (by rw [length_nil, Nat.zero_add, hlen]) (hrealizes.constants hf)
        rw [hval, nil_append, applied, if_pos (by rw [length_map, hlen]), Interpretation.eval_inst]

/-- The definitions of a name hold, and the name has the value of the term. -/
theorem Flat.eval (hrealizes : Realizes I value s) (h : s.Flat c n defs) :
    value n = (curryModel I value).eval c ∧ ∀ d ∈ defs, (curryModel I value).Holds d := by
  induction h with
  | var n => exact ⟨rfl, fun d hd => absurd hd not_mem_nil⟩
  | @app l r n nl nr dl dr hn _ _ ihl ihr =>
    refine ⟨hrealizes.flattened hn, fun d hd => ?_⟩
    rcases mem_append.mp hd with hd | hd
    · rcases mem_append.mp hd with hd | hd
      · exact ihl.2 d hd
      · exact ihr.2 d hd
    · rw [mem_singleton.mp hd, CurryModel.Holds, if_neg Bool.false_ne_true]
      have hl : (curryModel I value).value nl = (curryModel I value).eval l := ihl.1
      have hr : (curryModel I value).value nr = (curryModel I value).eval r := ihr.1
      rw [CurryModel.eval_app, CurryModel.eval_var, CurryModel.eval_var, CurryModel.eval_var, hl,
        hr]
      exact (hrealizes.flattened hn).symm

end Interpretation

/-! ## The invariant -/

/-- The stores hold what the names determine, and every interpretation extends to the names. -/
structure Inv (sig : Signature Var F S) (s : Stores Var F) : Prop where
  vars : ∀ {v c}, s.termStore (.var v) = some c → ∃ n, c = .var n ∧ n < s.nextVariable
  constants : ∀ {f c}, s.constantsStore f = some c → ∃ n, c = .var n ∧ n < s.nextVariable
  terms : ∀ {t c}, s.termStore t = some c → s.Curried t c
  formulas : ∀ {e c}, s.formulaStore e = some c → s.CurriedEquality e c
  flattenedTerms : ∀ {c n}, s.flattenedTerms c = some n → n < s.nextVariable ∧
    c.Below s.nextVariable ∧ ∃ defs, s.flatSubstitution n = some defs ∧ s.Flat c n defs
  flattened : ∀ {c eqs}, s.flattenedStore c = some eqs → s.FlatEquality c eqs
  realizable : ∀ I : Interpretation sig, ∃ value, Realizes I value s

variable {sig : Signature Var F S}

theorem Inv.initial : Inv sig (Stores.initial : Stores Var F) where
  vars h := by cases h
  constants h := by cases h
  terms h := by cases h
  formulas h := by cases h
  flattenedTerms h := by cases h
  flattened h := by cases h
  realizable I := ⟨fun _ => .inr none, ⟨nofun, nofun, nofun⟩⟩

theorem curriedArgs_below (ih : ∀ t' ∈ args, ∀ c, s.Curried t' c → c.Below n)
    (h : s.CurriedArgs sub args res) (hsub : sub.Below n) : res.Below n := by
  induction args generalizing sub with
  | nil =>
    cases h
    exact hsub
  | cons arg args ihl =>
    cases h with
    | cons harg hargs =>
      exact ihl (fun t' ht' => ih t' (mem_cons_of_mem arg ht')) hargs
        ⟨hsub, ih arg mem_cons_self _ harg⟩

theorem Inv.curried_below (h : Inv sig s) (hc : s.Curried t' c) : c.Below s.nextVariable := by
  induction t' using UTerm.induction generalizing c with
  | hvar v =>
    cases hc with
    | var hv =>
      obtain ⟨n, heq, hlt⟩ := h.vars hv
      exact (CurryTerm.var.inj heq) ▸ hlt
  | hinst f args ih =>
    cases hc with
    | inst hf hargs =>
      obtain ⟨n, heq, hlt⟩ := h.constants hf
      refine curriedArgs_below (fun t' ht' c hc => ih t' ht' hc) hargs ?_
      exact (CurryTerm.var.inj heq) ▸ hlt

/-- The value of a fresh variable does not change the values of the names. -/
theorem Inv.realizes_update (h : Inv sig s) {I : Interpretation sig} {value : ℕ → CurryValue I}
    (hrealizes : Realizes I value s) (d : CurryValue I) :
    Realizes I (update value s.nextVariable d) s := by
  constructor
  case vars =>
    intro v n hv
    obtain ⟨m, heq, hlt⟩ := h.vars hv
    obtain rfl := CurryTerm.var.inj heq
    rw [update_of_ne (Nat.ne_of_lt hlt)]
    exact hrealizes.vars hv
  case constants =>
    intro f n hf
    obtain ⟨m, heq, hlt⟩ := h.constants hf
    obtain rfl := CurryTerm.var.inj heq
    rw [update_of_ne (Nat.ne_of_lt hlt)]
    exact hrealizes.constants hf
  case flattened =>
    intro l r n hn
    obtain ⟨hlt, hbelow, -⟩ := h.flattenedTerms hn
    rw [update_of_ne (Nat.ne_of_lt hlt)]
    exact (hrealizes.flattened hn).trans
      (CurryModel.eval_update (M := curryModel I value) hbelow d).symm

/-- The stores grow by entries that the names determine. -/
theorem Inv.grow (h : Inv sig s) (hext : Extends s t) (hle : s.nextVariable ≤ t.nextVariable)
    (hvars : ∀ v c, t.termStore (.var v) = some c → s.termStore (.var v) = some c ∨
      ∃ n, c = .var n ∧ n < t.nextVariable)
    (hconsts : ∀ f c, t.constantsStore f = some c → s.constantsStore f = some c ∨
      ∃ n, c = .var n ∧ n < t.nextVariable)
    (hterms : ∀ t' c, t.termStore t' = some c → s.termStore t' = some c ∨ t.Curried t' c)
    (hforms : ∀ e c, t.formulaStore e = some c → s.formulaStore e = some c ∨ t.CurriedEquality e c)
    (hflattenedTerms : ∀ c n, t.flattenedTerms c = some n → s.flattenedTerms c = some n ∨
      n < t.nextVariable ∧ c.Below t.nextVariable ∧
        ∃ defs, t.flatSubstitution n = some defs ∧ t.Flat c n defs)
    (hsubst : ∀ n < s.nextVariable, t.flatSubstitution n = s.flatSubstitution n)
    (hflattened : ∀ c eqs, t.flattenedStore c = some eqs → s.flattenedStore c = some eqs ∨
      t.FlatEquality c eqs)
    (hrealizable : ∀ (I : Interpretation sig) value, Realizes I value s →
      ∃ value, Realizes I value t) : Inv sig t := by
  constructor
  case vars =>
    intro v c hv
    rcases hvars v c hv with hv | hv
    · obtain ⟨n, heq, hlt⟩ := h.vars hv
      exact ⟨n, heq, Nat.lt_of_lt_of_le hlt hle⟩
    · exact hv
  case constants =>
    intro f c hf
    rcases hconsts f c hf with hf | hf
    · obtain ⟨n, heq, hlt⟩ := h.constants hf
      exact ⟨n, heq, Nat.lt_of_lt_of_le hlt hle⟩
    · exact hf
  case terms => exact fun ht' => (hterms _ _ ht').elim (fun ht' => (h.terms ht').mono hext) id
  case formulas =>
    exact fun he => (hforms _ _ he).elim (fun he => (h.formulas he).mono hext) id
  case flattenedTerms =>
    intro c n hn
    rcases hflattenedTerms c n hn with hn | hn
    · obtain ⟨hlt, hbelow, defs, hdefs, hflat⟩ := h.flattenedTerms hn
      exact ⟨Nat.lt_of_lt_of_le hlt hle, hbelow.mono hle, defs, (hsubst n hlt).trans hdefs,
        hflat.mono hext⟩
    · exact hn
  case flattened =>
    exact fun hc => (hflattened _ _ hc).elim (fun hc => (h.flattened hc).mono hext) id
  case realizable =>
    intro I
    obtain ⟨value, hrealizes⟩ := h.realizable I
    exact hrealizable I value hrealizes

theorem update_eq_some {α β : Type*} [DecidableEq α] {g : α → Option β} {a b : α} {x y : β}
    (h : update g a (some x) b = some y) : b = a ∧ x = y ∨ b ≠ a ∧ g b = some y := by
  by_cases hb : b = a
  · subst hb
    exact .inl ⟨rfl, some.inj ((update_self b _ g).symm.trans h)⟩
  · exact .inr ⟨hb, (update_of_ne hb _ g).symm.trans h⟩

/-- An entry stays when another one is made. -/
theorem update_of_eq_none {α β : Type*} [DecidableEq α] {g : α → Option β} {a b : α} {x y : β}
    (ha : g a = none) (hb : g b = some y) : update g a (some x) b = some y := by
  have hne : b ≠ a := by
    rintro rfl
    cases ha.symm.trans hb
  exact (update_of_ne hne _ _).trans hb

section Operations

variable [DecidableEq Var] [DecidableEq F]

/-- A variable gets a name. -/
theorem Inv.nameVar (h : Inv sig s) {v : Var} (hv : s.termStore (.var v) = none)
    {t : Stores Var F} (ht : t = { s with
      termStore := update s.termStore (.var v) (some (.var s.nextVariable))
      nextVariable := s.nextVariable + 1 }) : Inv sig t ∧ Extends s t := by
  subst ht
  refine ⟨h.grow ?hext (Nat.le_succ _) ?vars (fun _ _ => .inl) ?terms (fun _ _ => .inl)
    (fun _ _ => .inl) (fun _ _ => rfl) (fun _ _ => .inl) ?realizable, ?hext⟩
  case hext => exact ⟨update_of_eq_none hv, id, id⟩
  case vars =>
    intro w c hw
    rcases update_eq_some hw with ⟨-, rfl⟩ | ⟨-, hw⟩
    · exact .inr ⟨_, rfl, Nat.lt_succ_self _⟩
    · exact .inl hw
  case terms =>
    intro t' c ht'
    rcases update_eq_some ht' with ⟨rfl, rfl⟩ | ⟨-, ht'⟩
    · exact .inr (.var (update_self _ _ _))
    · exact .inl ht'
  case realizable =>
    intro I value hrealizes
    have hframe := h.realizes_update hrealizes (.inl ⟨sig.sortOf v, I.var v⟩)
    refine ⟨_, ⟨fun {w n} hw => ?_, hframe.constants, hframe.flattened⟩⟩
    rcases update_eq_some hw with ⟨heq, hn⟩ | ⟨-, hw⟩
    · obtain rfl := UTerm.var.inj heq
      rw [← CurryTerm.var.inj hn, update_self]
    · exact hframe.vars hw

omit [DecidableEq Var] in
/-- A function gets a name. -/
theorem Inv.nameConstant (h : Inv sig s) (hf : s.constantsStore f = none)
    {t : Stores Var F} (ht : t = { s with
      constantsStore := update s.constantsStore f (some (.var s.nextVariable))
      nextVariable := s.nextVariable + 1 }) : Inv sig t ∧ Extends s t := by
  subst ht
  refine ⟨h.grow ?hext (Nat.le_succ _) (fun _ _ => .inl) ?constants (fun _ _ => .inl)
    (fun _ _ => .inl) (fun _ _ => .inl) (fun _ _ => rfl) (fun _ _ => .inl) ?realizable, ?hext⟩
  case hext => exact ⟨id, update_of_eq_none hf, id⟩
  case constants =>
    intro g c hg
    rcases update_eq_some hg with ⟨-, rfl⟩ | ⟨-, hg⟩
    · exact .inr ⟨_, rfl, Nat.lt_succ_self _⟩
    · exact .inl hg
  case realizable =>
    intro I value hrealizes
    have hframe := h.realizes_update hrealizes (applied I f [])
    refine ⟨_, ⟨hframe.vars, fun {g n} hg => ?_, hframe.flattened⟩⟩
    rcases update_eq_some hg with ⟨rfl, hn⟩ | ⟨-, hg⟩
    · rw [← CurryTerm.var.inj hn, update_self]
    · exact hframe.constants hg

omit [DecidableEq Var] [DecidableEq F] in
/-- An application gets a name, with the definitions of its parts and its own. -/
theorem Inv.nameApplication (h : Inv sig s) {l r : CurryTerm} (hl : l.Below s.nextVariable)
    (hr : r.Below s.nextVariable) (hlr : s.flattenedTerms (.app l r) = none) {nl nr : ℕ}
    {dl dr : List CurryEquality} (hfl : s.Flat l nl dl) (hfr : s.Flat r nr dr)
    {t : Stores Var F} (ht : t = { s with
      flattenedTerms := update s.flattenedTerms (.app l r) (some s.nextVariable)
      flatSubstitution := update s.flatSubstitution s.nextVariable
        (some (dl ++ dr ++ [⟨.app (.var nl) (.var nr), .var s.nextVariable, false⟩]))
      nextVariable := s.nextVariable + 1 }) :
    Inv sig t ∧ Extends s t ∧ t.Flat (.app l r) s.nextVariable
      (dl ++ dr ++ [⟨.app (.var nl) (.var nr), .var s.nextVariable, false⟩]) := by
  have hext : Extends s t := by
    subst ht
    exact ⟨id, id, update_of_eq_none hlr⟩
  have hflat : t.Flat (.app l r) s.nextVariable
      (dl ++ dr ++ [⟨.app (.var nl) (.var nr), .var s.nextVariable, false⟩]) :=
    .app (by rw [ht]; exact update_self _ _ _) (hfl.mono hext) (hfr.mono hext)
  refine ⟨?_, hext, hflat⟩
  subst ht
  refine h.grow hext (Nat.le_succ _) (fun _ _ => .inl) (fun _ _ => .inl) (fun _ _ => .inl)
    (fun _ _ => .inl) ?flattenedTerms
    (fun n hn => update_of_ne (Nat.ne_of_lt hn) _ _) (fun _ _ => .inl) ?realizable
  case flattenedTerms =>
    intro c n hn
    rcases update_eq_some hn with ⟨rfl, rfl⟩ | ⟨-, hn⟩
    · exact .inr ⟨Nat.lt_succ_self _, ⟨hl.mono (Nat.le_succ _), hr.mono (Nat.le_succ _)⟩, _,
        update_self _ _ _, hflat⟩
    · exact .inl hn
  case realizable =>
    intro I value hrealizes
    have hframe := h.realizes_update hrealizes ((curryModel I value).eval (.app l r))
    refine ⟨_, ⟨hframe.vars, hframe.constants, fun {l' r' n} hn => ?_⟩⟩
    rcases update_eq_some hn with ⟨heq, rfl⟩ | ⟨-, hn⟩
    · obtain ⟨rfl, rfl⟩ := CurryTerm.app.inj heq
      have hself := update_self s.nextVariable
        ((curryModel I value).eval (.app l' r') : CurryValue I) value
      exact hself.trans
        (CurryModel.eval_update (M := curryModel I value) (c := .app l' r') ⟨hl, hr⟩ _).symm
    · exact hframe.flattened hn

/-- What is remembered about other terms and about equalities does not touch the names. -/
theorem Inv.remember (h : Inv sig s) (hres : s.Curried (.inst f args) res)
    {t : Stores Var F} (ht : t = { s with
      termStore := update s.termStore (.inst f args) (some res) }) :
    Inv sig t ∧ Extends s t := by
  subst ht
  have hvar : ∀ v : Var,
      update s.termStore (.inst f args) (some res) (.var v) = s.termStore (.var v) :=
    fun v => update_of_ne (by simp) _ _
  have hext : Extends s { s with
      termStore := update s.termStore (.inst f args) (some res) } :=
    ⟨fun hv => (hvar _).trans hv, id, id⟩
  refine ⟨h.grow hext (Nat.le_refl _) (fun v c hv => .inl ((hvar v).symm.trans hv))
    (fun _ _ => .inl) ?terms (fun _ _ => .inl) (fun _ _ => .inl) (fun _ _ => rfl)
    (fun _ _ => .inl) ?realizable, hext⟩
  case terms =>
    intro t' c ht'
    rcases update_eq_some ht' with ⟨rfl, rfl⟩ | ⟨-, ht'⟩
    · exact .inr (hres.mono hext)
    · exact .inl ht'
  case realizable =>
    exact fun I value hrealizes => ⟨value, fun hv => hrealizes.vars ((hvar _).symm.trans hv),
      hrealizes.constants, hrealizes.flattened⟩

/-! ## Currying -/

omit [DecidableEq Var] in
theorem constant_spec (f : F) (h : Inv sig s) : Inv sig (s.constant f).2 ∧
    Extends s (s.constant f).2 ∧ ∃ n, (s.constant f).1 = .var n ∧
      (s.constant f).2.constantsStore f = some (.var n) := by
  rw [constant]
  split
  · next sub hsub =>
    obtain ⟨n, rfl, -⟩ := h.constants hsub
    exact ⟨h, Extends.refl s, n, rfl, hsub⟩
  · next hnone =>
    obtain ⟨hinv, hext⟩ := h.nameConstant hnone rfl
    exact ⟨hinv, hext, _, rfl, update_self _ _ _⟩

/-- What a step of currying promises. -/
def Curries (sig : Signature Var F S) (s : Stores Var F) (t' : UTerm Var F)
    (r : CurryTerm × Stores Var F) : Prop :=
  Inv sig r.2 ∧ Extends s r.2 ∧ r.2.Curried t' r.1

theorem curryArgs_spec
    (ih : ∀ t' ∈ args, ∀ s : Stores Var F, Inv sig s → Curries sig s t' (curryTerm t' s))
    (sub : CurryTerm) {s : Stores Var F} (h : Inv sig s) : Inv sig (curryArgs sub args s).2 ∧
      Extends s (curryArgs sub args s).2 ∧
      (curryArgs sub args s).2.CurriedArgs sub args (curryArgs sub args s).1 := by
  induction args generalizing sub s with
  | nil =>
    rw [curryArgs]
    exact ⟨h, Extends.refl s, .nil sub⟩
  | cons arg args ihl =>
    obtain ⟨hinv, hext, hcurried⟩ := ih arg mem_cons_self s h
    obtain ⟨hinv', hext', hargs⟩ := ihl (fun t' ht' => ih t' (mem_cons_of_mem arg ht'))
      (.app sub (curryTerm arg s).1) hinv
    rw [curryArgs]
    exact ⟨hinv', hext.trans hext', .cons (hcurried.mono hext') hargs⟩

theorem curryTerm_spec (t' : UTerm Var F) {s : Stores Var F} (h : Inv sig s) :
    Curries sig s t' (curryTerm t' s) := by
  induction t' using UTerm.induction generalizing s with
  | hvar v =>
    rw [curryTerm]
    split
    · next res hres => exact ⟨h, Extends.refl s, h.terms hres⟩
    · next hnone =>
      obtain ⟨hinv, hext⟩ := h.nameVar hnone rfl
      exact ⟨hinv, hext, .var (update_self _ _ _)⟩
  | hinst f args ih =>
    rw [curryTerm]
    split
    · next res hres => exact ⟨h, Extends.refl s, h.terms hres⟩
    · obtain ⟨hinv₁, hext₁, n, hsub, hconst⟩ := constant_spec f h
      obtain ⟨hinv₂, hext₂, hargs⟩ :=
        curryArgs_spec (fun t' ht' s hs => ih t' ht' hs) (s.constant f).1 hinv₁
      rw [hsub] at hinv₂ hext₂ hargs
      have hcurried : Curried _ (.inst f args) _ :=
        .inst (hext₂.constants hconst) hargs
      obtain ⟨hinv₃, hext₃⟩ := hinv₂.remember hcurried rfl
      simp only [hsub]
      exact ⟨hinv₃, (hext₁.trans hext₂).trans hext₃, hcurried.mono hext₃⟩

/-- An equality is remembered with its curried form. -/
theorem Inv.rememberFormula (h : Inv sig s) {c : CurryEquality} (hc : s.CurriedEquality e c)
    {t : Stores Var F} (ht : t = { s with
      formulaStore := update s.formulaStore e (some c) }) : Inv sig t ∧ Extends s t := by
  have hext : Extends s t := by
    subst ht
    exact ⟨id, id, id⟩
  subst ht
  refine ⟨h.grow hext (Nat.le_refl _) (fun _ _ => .inl) (fun _ _ => .inl) (fun _ _ => .inl)
    ?_ (fun _ _ => .inl) (fun _ _ => rfl) (fun _ _ => .inl) fun I value hrealizes =>
      ⟨value, hrealizes.vars, hrealizes.constants, hrealizes.flattened⟩, hext⟩
  intro e' c' he'
  rcases update_eq_some he' with ⟨rfl, rfl⟩ | ⟨-, he'⟩
  · exact .inr (hc.mono hext)
  · exact .inl he'

theorem curry_spec (e : UEquality Var F) {s : Stores Var F} (h : Inv sig s) :
    Inv sig (s.curry e).2 ∧ Extends s (s.curry e).2 ∧
      (s.curry e).2.CurriedEquality e (s.curry e).1 := by
  rw [curry]
  split
  · next res hres => exact ⟨h, Extends.refl s, h.formulas hres⟩
  · obtain ⟨hinv₁, hext₁, hlhs⟩ := curryTerm_spec e.lhs h
    obtain ⟨hinv₂, hext₂, hrhs⟩ := curryTerm_spec e.rhs hinv₁
    have hcurried : CurriedEquality _ e ⟨_, _, e.negated⟩ := ⟨hlhs.mono hext₂, hrhs, rfl⟩
    obtain ⟨hinv₃, hext₃⟩ := hinv₂.rememberFormula hcurried rfl
    exact ⟨hinv₃, (hext₁.trans hext₂).trans hext₃, hcurried.mono hext₃⟩

/-! ## Flattening -/

omit [DecidableEq Var] [DecidableEq F] in
/-- Flattening a term names no larger term. -/
theorem flattenTerm_frame (c : CurryTerm) (s : Stores Var F) {d : CurryTerm}
    (hd : sizeOf c < sizeOf d) : (flattenTerm c s).2.flattenedTerms d = s.flattenedTerms d := by
  induction c generalizing s with
  | var n => rw [flattenTerm]
  | app l r ihl ihr =>
    have hl : sizeOf l < sizeOf d := by
      rw [CurryTerm.app.sizeOf_spec] at hd
      omega
    have hr : sizeOf r < sizeOf d := by
      rw [CurryTerm.app.sizeOf_spec] at hd
      omega
    rw [flattenTerm]
    split
    · rfl
    · have hne : d ≠ .app l r := by
        rintro rfl
        exact absurd hd (Nat.lt_irrefl _)
      have hlast := update_of_ne hne
        (some (flattenTerm r (flattenTerm l s).2).2.nextVariable)
        (flattenTerm r (flattenTerm l s).2).2.flattenedTerms
      exact (hlast.trans (ihr _ hr)).trans (ihl s hl)

omit [DecidableEq Var] [DecidableEq F] in
theorem flattenTerm_spec (c : CurryTerm) {s : Stores Var F} (h : Inv sig s)
    (hc : c.Below s.nextVariable) : Inv sig (flattenTerm c s).2 ∧ Extends s (flattenTerm c s).2 ∧
      s.nextVariable ≤ (flattenTerm c s).2.nextVariable ∧
      (flattenTerm c s).2.Flat c (flattenTerm c s).1.1 (flattenTerm c s).1.2 := by
  induction c generalizing s with
  | var n =>
    rw [flattenTerm]
    exact ⟨h, Extends.refl s, Nat.le_refl _, .var n⟩
  | app l r ihl ihr =>
    rw [flattenTerm]
    split
    · next n hn =>
      obtain ⟨-, -, defs, hdefs, hflat⟩ := h.flattenedTerms hn
      refine ⟨h, Extends.refl s, Nat.le_refl _, ?_⟩
      rw [hdefs]
      exact hflat
    · next hnone =>
      obtain ⟨hinv₁, hext₁, hle₁, hfl⟩ := ihl h hc.1
      obtain ⟨hinv₂, hext₂, hle₂, hfr⟩ := ihr hinv₁ (hc.2.mono hle₁)
      have hnone' : (flattenTerm r (flattenTerm l s).2).2.flattenedTerms (.app l r) = none := by
        rw [flattenTerm_frame r _ (by rw [CurryTerm.app.sizeOf_spec]; omega),
          flattenTerm_frame l _ (by rw [CurryTerm.app.sizeOf_spec]; omega), hnone]
      obtain ⟨hinv₃, hext₃, hflat⟩ := hinv₂.nameApplication
        (hc.1.mono (Nat.le_trans hle₁ hle₂)) (hc.2.mono (Nat.le_trans hle₁ hle₂)) hnone'
        (hfl.mono hext₂) hfr rfl
      exact ⟨hinv₃, (hext₁.trans hext₂).trans hext₃,
        Nat.le_succ_of_le (Nat.le_trans hle₁ hle₂), hflat⟩

omit [DecidableEq Var] [DecidableEq F] in
/-- An equality is remembered with its flattened form. -/
theorem Inv.rememberFlat (h : Inv sig s) {c : CurryEquality} (hc : s.FlatEquality c eqs)
    {t : Stores Var F} (ht : t = { s with
      flattenedStore := update s.flattenedStore c (some eqs) }) :
    Inv sig t ∧ Extends s t := by
  have hext : Extends s t := by
    subst ht
    exact ⟨id, id, id⟩
  subst ht
  refine ⟨h.grow hext (Nat.le_refl _) (fun _ _ => .inl) (fun _ _ => .inl) (fun _ _ => .inl)
    (fun _ _ => .inl) (fun _ _ => .inl) (fun _ _ => rfl) ?_ fun I value hrealizes =>
      ⟨value, hrealizes.vars, hrealizes.constants, hrealizes.flattened⟩, hext⟩
  intro c' eqs' hc'
  rcases update_eq_some hc' with ⟨rfl, rfl⟩ | ⟨-, hc'⟩
  · exact .inr (hc.mono hext)
  · exact .inl hc'

omit [DecidableEq Var] [DecidableEq F] in
theorem flatten_spec (c : CurryEquality) {s : Stores Var F} (h : Inv sig s)
    (hl : c.lhs.Below s.nextVariable) (hr : c.rhs.Below s.nextVariable) :
    Inv sig (s.flatten c).2 ∧ Extends s (s.flatten c).2 ∧
      s.nextVariable ≤ (s.flatten c).2.nextVariable ∧
      (s.flatten c).2.FlatEquality c (s.flatten c).1 := by
  rw [flatten]
  split
  · next res hres => exact ⟨h, Extends.refl s, Nat.le_refl _, h.flattened hres⟩
  · obtain ⟨hinv₁, hext₁, hle₁, hfl⟩ := flattenTerm_spec c.lhs h hl
    obtain ⟨hinv₂, hext₂, hle₂, hfr⟩ := flattenTerm_spec c.rhs hinv₁ (hr.mono hle₁)
    have hflat : FlatEquality _ c _ := ⟨_, _, _, _, hfl.mono hext₂, hfr, rfl⟩
    obtain ⟨hinv₃, hext₃⟩ := hinv₂.rememberFlat hflat rfl
    exact ⟨hinv₃, (hext₁.trans hext₂).trans hext₃, Nat.le_trans hle₁ hle₂, hflat.mono hext₃⟩

end Operations

end Stores

end Smtrat.Curry
