import Smtrat.CAD.Projection.NoneUnorderedRun

/-!
# Incremental projection, backtracking out of order

`Projection<Incrementality::FULL, BT>` keeps candidates for projection in a queue and projects one of them
at a time.  Level zero holds the polynomials of the constraints.  This is the projection of the settings
that do not simplify by bounds.
-/

namespace Smtrat.CAD

universe u

/-- A projection candidate: a level to project from and two ids of this level. -/
structure QueueEntry where
  level : ℕ
  first : ℕ
  second : ℕ
deriving DecidableEq

/-- `Projection<FULL, UNORDERED>`; the levels from one on are kept as in the projection without
incrementality. -/
structure ProjectionF (P : Type u) extends ProjectionNU P where
  /-- The polynomials of level zero, by the ids of their constraints. -/
  received : ℕ → Option P
  projectionQueue : List QueueEntry

namespace ProjectionF

variable {P : Type u}

def init : ProjectionF P := { ProjectionNU.init with received := fun _ => none, projectionQueue := [] }

/-- `ProjectionCandidateComparator`, from a comparison of candidates. -/
abbrev Comparator (P : Type u) := ℕ × Option P × Option P → ℕ × Option P × Option P → Bool

/-- `getPolynomialById` -/
def polynomialAt (s : ProjectionF P) : ℕ → ℕ → Option P
  | 0, id => s.received id
  | level + 1, id => s.polynomialById (level + 1) id

def candidate (s : ProjectionF P) (qe : QueueEntry) : ℕ × Option P × Option P :=
  (qe.level, s.polynomialAt qe.level qe.first, s.polynomialAt qe.level qe.second)

/-- The top of the priority queue. -/
def top (less : Comparator P) (s : ProjectionF P) (qe : QueueEntry) (rest : List QueueEntry) :
    QueueEntry :=
  rest.foldl (fun best e => if less (s.candidate best) (s.candidate e) then e else best) qe

/-- Removes the projection candidates that involve a polynomial. -/
def removeFromProjectionQueue (level id : ℕ) (s : ProjectionF P) : ProjectionF P :=
  { s with
    projectionQueue := s.projectionQueue.filter fun qe =>
      ¬ (qe.level = level ∧ (qe.first = id ∨ qe.second = id)) }

variable [LinearOrder P]

/-- Adds projection candidates for a new polynomial. -/
def insertIntoProjectionQueue (level id : ℕ) (s : ProjectionF P) : ProjectionF P :=
  { s with
    projectionQueue := s.projectionQueue ++
      (s.polynomialIDs level).map fun it => ⟨level, it.2, id⟩ }

variable (op : ProjectionOperator P) (pool : IDPool) (less : Comparator P)

/-- Inserts a polynomial that has no id yet into a level. -/
def insertNew (last : Bool) (level : ℕ) (p : P) (origin : BaseType) (s : ProjectionF P) :
    ProjectionF P :=
  let new := s.getID pool level
  let s := { s with toProjectionNU := new.2.insertPolynomial level p new.1 origin }
  if last then s else s.insertIntoProjectionQueue level new.1

/-- Inserts a polynomial with the given origin into the given level; the first number is that of the
levels above. -/
def insertPolynomialTo : ℕ → ℕ → P → BaseType → ProjectionF P → Finset ℕ × ProjectionF P
  | 0, level, p, origin, s =>
    if op.canBeRemoved p then (∅, s)
    else match OrderedMap.find p (s.polynomialIDs level) with
      | some id => (∅, { s with toProjectionNU := s.addOrigin level id origin })
      | none => ({level}, s.insertNew pool true level p origin)
  | n + 1, level, p, origin, s =>
    if op.canBeRemoved p then (∅, s)
    else if op.canBeForwarded p then
      insertPolynomialTo n (level + 1) (op.switchVariable (level + 1) p) origin s
    else match OrderedMap.find p (s.polynomialIDs level) with
      | some id => (∅, { s with toProjectionNU := s.addOrigin level id origin })
      | none => ({level}, s.insertNew pool false level p origin)

variable (dim : ℕ)

/-- Projects a candidate; its polynomials have to be present. -/
def projectCandidate (qe : QueueEntry) (s : ProjectionF P) : Option (Finset ℕ × ProjectionF P) :=
  match qe.level with
  | 0 => (s.received qe.first).map fun p =>
    ({1}, (insertPolynomialTo op pool (dim - 1) 1 p (BaseType.ofId 0 qe.first) s).2)
  | level + 1 =>
    let insertAll (origin : BaseType) (nps : List P) : Finset ℕ × ProjectionF P :=
      forEach (fun np => insertPolynomialTo op pool (dim - (level + 2)) (level + 2) np origin) nps s
    if qe.first = qe.second then
      (s.polynomialById (level + 1) qe.first).map fun p =>
        insertAll (BaseType.ofId (level + 1) qe.first) (op.single (level + 2) p)
    else
      (s.polynomialById (level + 1) qe.first).bind fun p =>
        (s.polynomialById (level + 1) qe.second).map fun q =>
          insertAll (BaseType.mk' (level + 1) qe.first qe.second) (op.paired (level + 2) p q)

/-- Projects candidates until there is something new; the first number bounds the length of the queue. -/
def project : ℕ → ProjectionF P → Option (Finset ℕ × ProjectionF P)
  | 0, s => some (∅, s)
  | fuel + 1, s =>
    match s.projectionQueue with
    | [] => some (∅, s)
    | qe :: rest =>
      let candidate := s.top less qe rest
      (projectCandidate op pool dim candidate
        { s with projectionQueue := (qe :: rest).erase candidate }).bind fun r =>
          if r.1 = ∅ then project fuel r.2 else some r

def projectNewPolynomial (s : ProjectionF P) : Option (Finset ℕ × ProjectionF P) :=
  project op pool less dim s.projectionQueue.length s

/-- Bounds are inserted at once, other polynomials wait in the queue. -/
def addPolynomial (p : P) (cid : ℕ) (isBound : Bool) (s : ProjectionF P) : ProjectionF P :=
  let s := { s with received := Function.update s.received cid (some p) }
  if isBound then (insertPolynomialTo op pool (dim - 1) 1 p (BaseType.ofId 0 cid) s).2
  else { s with projectionQueue := s.projectionQueue ++ [⟨0, cid, cid⟩] }

omit [LinearOrder P]

/-- The candidates of removed polynomials leave the queue, unless the polynomials are on the last level. -/
def removePolynomial (cid : ℕ) (s : ProjectionF P) : List (ℕ × Finset ℕ) × ProjectionF P :=
  let s := { s with received := Function.update s.received cid none }
    |>.removeFromProjectionQueue 0 cid
  let r := s.toProjectionNU.removePolynomial dim cid
  (r.1, { s with
    toProjectionNU := r.2
    projectionQueue := s.projectionQueue.filter fun qe => ¬ ∃ call ∈ r.1,
      call.1 < dim ∧ qe.level = call.1 ∧ (qe.first ∈ call.2 ∨ qe.second ∈ call.2) })

/-! ## Inserting

A polynomial that is new on a level becomes a candidate on its own and with all polynomials of the level.
-/

open Saturation List Function Option

variable {P : Type u}

/-- The polynomial of the id waits with itself and with all others of its level. -/
def Waits (s : ProjectionF P) (level id : ℕ) : Prop :=
  ⟨level, id, id⟩ ∈ s.projectionQueue ∧ ∀ id', (s.polynomialById level id').isSome →
    ⟨level, id', id⟩ ∈ s.projectionQueue ∨ ⟨level, id, id'⟩ ∈ s.projectionQueue

/-- The candidate is on a level that is projected and its polynomials are present. -/
def Valid (dim : ℕ) (s : ProjectionF P) (qe : QueueEntry) : Prop :=
  1 ≤ qe.level ∧ qe.level < dim ∧ (s.polynomialById qe.level qe.first).isSome ∧
    (s.polynomialById qe.level qe.second).isSome

/-- The projection grows, and new polynomials wait to be projected. -/
structure Grown (dim : ℕ) (s s' : ProjectionF P) : Prop where
  wellFormed : s.WellFormed → s'.WellFormed
  received : s'.received = s.received
  kept : ∀ level id p, s.polynomialById level id = some p → s'.polynomialById level id = some p
  queue : ∀ qe ∈ s.projectionQueue, qe ∈ s'.projectionQueue
  fresh : ∀ level id, level < dim → (s'.polynomialById level id).isSome →
    (s.polynomialById level id).isSome ∨ s'.Waits level id
  valid : ∀ qe ∈ s'.projectionQueue, qe ∈ s.projectionQueue ∨ Valid dim s' qe

variable {dim : ℕ} {s s' s'' : ProjectionF P} {level : ℕ} {p : P}

theorem Valid.kept {qe : QueueEntry} (h : Valid dim s qe)
    (hkept : ∀ level id p, s.polynomialById level id = some p → s'.polynomialById level id = some p) :
    Valid dim s' qe := by
  obtain ⟨hone, hdim, hfst, hsnd⟩ := h
  obtain ⟨p, hp⟩ := isSome_iff_exists.mp hfst
  obtain ⟨q, hq⟩ := isSome_iff_exists.mp hsnd
  exact ⟨hone, hdim, by rw [hkept _ _ p hp]; rfl, by rw [hkept _ _ q hq]; rfl⟩

theorem Grown.refl (s : ProjectionF P) : Grown dim s s where
  wellFormed h := h
  received := rfl
  kept _ _ _ h := h
  queue _ h := h
  fresh _ _ _ h := .inl h
  valid _ h := .inl h

theorem Grown.trans (h : Grown dim s s') (h' : Grown dim s' s'') : Grown dim s s'' where
  wellFormed hs := h'.wellFormed (h.wellFormed hs)
  received := h'.received.trans h.received
  kept level id p hp := h'.kept level id p (h.kept level id p hp)
  queue qe hqe := h'.queue qe (h.queue qe hqe)
  fresh level id hlev hid := by
    rcases h'.fresh level id hlev hid with hid | hwaits
    · rcases h.fresh level id hlev hid with hid | ⟨hself, hothers⟩
      · exact .inl hid
      · refine .inr ⟨h'.queue _ hself, fun id' hid' => ?_⟩
        -- the other one was there, or it came later and waits itself
        rcases h'.fresh level id' hlev hid' with hid' | ⟨-, hwaits⟩
        · exact (hothers id' hid').imp (h'.queue _) (h'.queue _)
        · obtain ⟨q, hq⟩ := isSome_iff_exists.mp hid
          exact (hwaits id (by rw [h'.kept _ _ q hq]; rfl)).symm
    · exact .inr hwaits
  valid qe hqe := by
    rcases h'.valid qe hqe with hqe | hvalid
    · exact (h.valid qe hqe).imp_right fun hvalid => hvalid.kept h'.kept
    · exact .inr hvalid

/-- The polynomials `Q` were inserted from a level on; the result names the levels that got new ones. -/
structure Inserted (π : Projector P) (level : ℕ) (Q : Set P) (s : ProjectionF P)
    (r : Finset ℕ × ProjectionF P) : Prop where
  grown : Grown π.dim s r.2
  placed : ∀ q ∈ Q, Placed π level q r.2.levels
  least : ∀ T : ℕ → Set P, (∀ k, s.levels k ⊆ T k) → (∀ q ∈ Q, Placed π level q T) →
    ∀ k, r.2.levels k ⊆ T k
  idle : r.1 = ∅ → r.2.projectionQueue = s.projectionQueue

theorem levels_subset (hs : s.WellFormed) (hs' : s'.WellFormed) (h : Grown dim s s') (k : ℕ) :
    s.levels k ⊆ s'.levels k := by
  intro q hq
  obtain ⟨id, hid⟩ := hs.exists_polynomialById.mpr hq
  exact hs'.exists_polynomialById.mp ⟨id, h.kept k id q hid⟩

/-- A loop of insertions inserts everything. -/
theorem forEach_inserted {π : Projector P} {f : P → ProjectionF P → Finset ℕ × ProjectionF P}
    (hf : ∀ q s, s.WellFormed → Inserted π level {q} s (f q s)) (qs : List P) (hs : s.WellFormed) :
    Inserted π level {q | q ∈ qs} s (forEach f qs s) := by
  induction qs generalizing s with
  | nil =>
    exact ⟨Grown.refl s, fun q hq => absurd hq not_mem_nil, fun _ h _ => h, fun _ => rfl⟩
  | cons q qs ih =>
    have hfst := hf q s hs
    have hwf := hfst.grown.wellFormed hs
    have hrest := ih hwf
    refine ⟨hfst.grown.trans hrest.grown, fun r hr => ?_, fun T hT hQ => ?_, fun hempty => ?_⟩
    · rcases mem_cons.mp hr with rfl | hr
      · exact (hfst.placed _ rfl).mono (levels_subset hwf (hrest.grown.wellFormed hwf) hrest.grown)
      · exact hrest.placed r hr
    · refine hrest.least T (hfst.least T hT ?_) fun r hr => hQ r (mem_cons_of_mem q hr)
      intro r hr
      rw [Set.mem_singleton_iff.mp hr]
      exact hQ q mem_cons_self
    · obtain ⟨h₁, h₂⟩ := Finset.union_eq_empty.mp hempty
      exact (hrest.idle h₂).trans (hfst.idle h₁)

/-! ## Single insertions -/

theorem polynomialById_addOrigin (s : ProjectionNU P) (level id : ℕ) (origin : BaseType) (k id' : ℕ) :
    (s.addOrigin level id origin).polynomialById k id' = s.polynomialById k id' := by
  rw [ProjectionNU.polynomialById, ProjectionNU.addOrigin, ProjectionNU.setPolynomial_apply]
  split_ifs with hsame
  · obtain ⟨rfl, rfl⟩ := hsame
    rw [Option.map_map]
    rfl
  · rfl

variable [LinearOrder P] (op : ProjectionOperator P) (pool : IDPool)

/-- A polynomial that is on its level already. -/
theorem inserted_known {id : ℕ} {origin : BaseType}
    (hpl : (op.forwarding dim).place level p = some (level, p))
    (hfind : OrderedMap.find p (s.polynomialIDs level) = some id) (horig : origin.level < level) :
    Inserted (op.forwarding dim) level {p} s
      (∅, { s with toProjectionNU := s.addOrigin level id origin }) where
  grown :=
    { wellFormed := (ProjectionNU.grown_addOrigin level id horig s.toProjectionNU).wellFormed
      received := rfl
      kept := by
        intro k id' q hq
        show (s.toProjectionNU.addOrigin level id origin).polynomialById k id' = some q
        rwa [polynomialById_addOrigin]
      queue := fun _ h => h
      fresh := by
        intro k id' _ h
        have h : ((s.toProjectionNU.addOrigin level id origin).polynomialById k id').isSome := h
        rw [polynomialById_addOrigin] at h
        exact .inl h
      valid := fun _ h => .inl h }
  placed q hq := by
    obtain rfl := Set.mem_singleton_iff.mp hq
    exact (placed_iff hpl).mpr ⟨id, OrderedMap.mem_of_find hfind⟩
  least _ hT _ := hT
  idle _ := rfl

/-- A new polynomial is stored, and becomes a candidate unless it is on the last level. -/
theorem inserted_new {origin : BaseType} (hs : s.WellFormed) (last : Bool)
    (hlev : 1 ≤ level) (hlast : if last then dim ≤ level else level < dim)
    (hpl : (op.forwarding dim).place level p = some (level, p))
    (hfind : OrderedMap.find p (s.polynomialIDs level) = none) (horig : origin.level < level) :
    Inserted (op.forwarding dim) level {p} s ({level}, s.insertNew pool last level p origin) := by
  have hnot := ProjectionNU.WellFormed.find_eq_none.mp hfind
  set id := (s.getID pool level).1 with hid
  have hfree : s.polynomials level id = none :=
    not_isSome_iff_eq_none.mp fun h => pool.get_notMem _ (hs.used level _ h)
  set base := (s.getID pool level).2.insertPolynomial level p id origin with hbase
  have hgrown : ProjectionNU.Grown level s.toProjectionNU base := by
    refine (ProjectionNU.grown_getID pool level s.toProjectionNU).trans
      (ProjectionNU.grown_insertPolynomial hnot ?_ hfree horig)
    show _ ∈ update s.idPools level _ level
    rw [update_self]
    exact Finset.mem_insert_self ..
  have hwf := hgrown.wellFormed hs
  have hent (k id' : ℕ) : base.polynomialById k id'
      = if k = level ∧ id' = id then some p else s.polynomialById k id' := by
    rw [ProjectionNU.polynomialById]
    have h := ProjectionNU.setPolynomial_apply s.toProjectionNU level id
      (some (p, Origin.ofBase origin)) k id'
    rw [show base.polynomials k id' = _ from h]
    split_ifs <;> rfl
  have hnew : (s.insertNew pool last level p origin).toProjectionNU = base := by
    rw [insertNew]
    cases last <;> rfl
  have hkept (k id' : ℕ) (q : P) (hq : s.polynomialById k id' = some q) :
      base.polynomialById k id' = some q := by
    rw [hent, if_neg]
    · exact hq
    · rintro ⟨rfl, rfl⟩
      rw [ProjectionNU.polynomialById, hfree] at hq
      cases hq
  have hqueue : (s.insertNew pool last level p origin).projectionQueue = s.projectionQueue ++
      if last then [] else (base.polynomialIDs level).map fun it => ⟨level, it.2, id⟩ := by
    rw [insertNew]
    cases last
    · rfl
    · exact (append_nil _).symm
  have hcand (hlast : last = false) {id' : ℕ} (h : (base.polynomialById level id').isSome) :
      ⟨level, id', id⟩ ∈ (s.insertNew pool last level p origin).projectionQueue := by
    rw [hqueue, hlast, if_neg Bool.false_ne_true]
    obtain ⟨e, he⟩ := isSome_iff_exists.mp (by rwa [ProjectionNU.polynomialById, isSome_map] at h)
    exact mem_append_right _ (List.mem_map.mpr ⟨(e.1, id'),
      (hwf.ids level e.1 id').mpr ⟨e.2, he⟩, rfl⟩)
  have hself : (base.polynomialById level id).isSome := by
    rw [hent, if_pos ⟨rfl, rfl⟩]
    rfl
  refine ⟨⟨?_, ?_, ?_, ?_, ?_, ?_⟩, ?_, ?_, ?_⟩
  · intro _
    show (s.insertNew pool last level p origin).toProjectionNU.WellFormed
    rwa [hnew]
  · show (s.insertNew pool last level p origin).received = s.received
    rw [insertNew]
    cases last <;> rfl
  · intro k id' q hq
    show (s.insertNew pool last level p origin).toProjectionNU.polynomialById k id' = some q
    rw [hnew]
    exact hkept k id' q hq
  · intro qe hqe
    rw [hqueue]
    exact mem_append_left _ hqe
  · intro k id' hk h
    have hk : k < dim := hk
    have h : ((s.insertNew pool last level p origin).toProjectionNU.polynomialById k id').isSome := h
    rw [hnew, hent] at h
    split_ifs at h with hsame
    · obtain ⟨rfl, rfl⟩ := hsame
      have hfalse : last = false := by
        cases last
        · rfl
        · exact absurd hlast (not_le.mpr hk)
      refine .inr ⟨hcand hfalse hself, fun id' hid' => .inl (hcand hfalse ?_)⟩
      rwa [← hnew]
    · exact .inl h
  · intro qe hqe
    rw [hqueue] at hqe
    rcases mem_append.mp hqe with hqe | hqe
    · exact .inl hqe
    · cases last
      · obtain ⟨it, hit, rfl⟩ := List.mem_map.mp hqe
        refine .inr ⟨hlev, hlast, ?_, ?_⟩
        · show ((s.insertNew pool false level p origin).toProjectionNU.polynomialById level
            it.2).isSome
          rw [hnew]
          obtain ⟨o, ho⟩ := (hwf.ids level it.1 it.2).mp hit
          rw [ProjectionNU.polynomialById, ho]
          rfl
        · show ((s.insertNew pool false level p origin).toProjectionNU.polynomialById level
            id).isSome
          rwa [hnew]
      · exact absurd hqe not_mem_nil
  · intro q hq
    obtain rfl := Set.mem_singleton_iff.mp hq
    refine (placed_iff hpl).mpr ?_
    show q ∈ (s.insertNew pool last level q origin).toProjectionNU.levels level
    rw [hnew, ← hwf.exists_polynomialById]
    exact ⟨id, by rw [hent, if_pos ⟨rfl, rfl⟩]⟩
  · intro T hT hQ k q hq
    have hq : q ∈ (s.insertNew pool last level p origin).toProjectionNU.levels k := hq
    rw [hnew, ← hwf.exists_polynomialById] at hq
    obtain ⟨id', hid'⟩ := hq
    rw [hent] at hid'
    split_ifs at hid' with hsame
    · obtain ⟨rfl, rfl⟩ := hsame
      obtain rfl := some_inj.mp hid'
      exact hQ p rfl _ _ hpl
    · exact hT k (hs.exists_polynomialById.mp ⟨id', hid'⟩)
  · intro hempty
    exact absurd hempty (Finset.singleton_ne_empty level)

theorem insertPolynomialTo_inserted {n : ℕ} {origin : BaseType} (hn : n + level = dim)
    (hlev : 1 ≤ level) (hs : s.WellFormed) (horig : origin.level < level) :
    Inserted (op.forwarding dim) level {p} s (insertPolynomialTo op pool n level p origin s) := by
  induction n generalizing level p with
  | zero =>
    obtain rfl : level = dim := by omega
    have hpl := op.forwarding_place_dim level p
    rw [insertPolynomialTo]
    split_ifs with hrem
    · rw [if_pos hrem] at hpl
      refine ⟨Grown.refl s, fun q hq => ?_, fun _ hT _ => hT, fun _ => rfl⟩
      rw [Set.mem_singleton_iff.mp hq]
      exact Placed.of_none hpl
    · rw [if_neg hrem] at hpl
      cases hfind : OrderedMap.find p (s.polynomialIDs level) with
      | some id => exact inserted_known op hpl hfind horig
      | none =>
        exact inserted_new op pool hs true hlev le_rfl hpl hfind horig
  | succ n ih =>
    have hpl := op.forwarding_place_of_lt (show level < dim by omega) p
    rw [insertPolynomialTo]
    split_ifs with hrem hfwd
    · rw [if_pos hrem] at hpl
      refine ⟨Grown.refl s, fun q hq => ?_, fun _ hT _ => hT, fun _ => rfl⟩
      rw [Set.mem_singleton_iff.mp hq]
      exact Placed.of_none hpl
    · rw [if_neg hrem, if_pos hfwd] at hpl
      have hins := ih (p := op.switchVariable (level + 1) p)
        (show n + (level + 1) = dim by omega) (Nat.le_add_left 1 level)
        (horig.trans (Nat.lt_succ_self level))
      have hforwarded (T : ℕ → Set P) : Placed (op.forwarding dim) level p T ↔
          Placed (op.forwarding dim) (level + 1) (op.switchVariable (level + 1) p) T := by
        rw [Placed, Placed, hpl]
      refine ⟨hins.grown, fun q hq => ?_, fun T hT hQ => ?_, hins.idle⟩
      · rw [Set.mem_singleton_iff.mp hq, hforwarded]
        exact hins.placed _ rfl
      · refine hins.least T hT fun q hq => ?_
        rw [Set.mem_singleton_iff.mp hq, ← hforwarded]
        exact hQ p rfl
    · rw [if_neg hrem, if_neg hfwd] at hpl
      cases hfind : OrderedMap.find p (s.polynomialIDs level) with
      | some id => exact inserted_known op hpl hfind horig
      | none =>
        exact inserted_new op pool hs false hlev (show level < dim by omega) hpl hfind horig

end ProjectionF

end Smtrat.CAD
