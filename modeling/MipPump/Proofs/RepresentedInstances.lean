import MipPump.Number.ExtRat
import MipPump.Oracle.Relaxation
import MipPump.Proofs.Tables

/-!
# Instances and what represents them

An instance is made of columns whose numbers of entries are compared.  It is represented by a
problem and by a relaxation, which both have one variable for every name.

* `Instance.Aligned`: columns and rows agree in number, with the costs as the measure.
* `Instance.Keeps`: the instance has the columns that it was made of.  The coefficients are cut into
  rows anew, but row by row they are the same numbers.
* `Instance.Lists`: variables have the data of the columns.
* `Instance.TakenBySolver`: names, bounds and rows that a relaxation can be built of.
* `Instance.Represented`: the problem lists all variables, and the relaxation has all columns unless
  the solver refuses the data.

**Result.**  `accepted_instance_represented_iff`: an accepted instance is aligned, and it is
represented if and only if there are as many names as costs.  `unnamed_column_lost` is an accepted
instance that loses a column.
-/

namespace MipPump

namespace Nested

variable {R α : Type} {n rows : ℕ} {xs : List α}

theorem length_of_mem_cut (h : xs.length = rows * n) : ∀ row ∈ cut n rows xs, row.length = n := by
  induction rows generalizing xs with
  | zero => exact nofun
  | succ rows ih =>
      rw [Nat.succ_mul] at h
      rw [cut, List.forall_mem_cons]
      refine ⟨?_, ih ?_⟩
      · rw [List.length_take]
        omega
      · rw [List.length_drop]
        omega

/-- Cutting loses nothing. -/
theorem flatten_cut (h : xs.length = rows * n) : (cut n rows xs).flatten = xs := by
  induction rows generalizing xs with
  | zero => exact (List.length_eq_zero_iff.mp (h.trans (Nat.zero_mul n))).symm
  | succ rows ih =>
      rw [Nat.succ_mul] at h
      rw [cut, List.flatten_cons, ih (by rw [List.length_drop]; omega), List.take_append_drop]

/-- Numbers in rows: each row has `n` of them, and row by row they are the given ones. -/
theorem rowsOf_eq_ok {x : Nested R} {cutRows : List (List R)}
    (h : (x.rowsOf n : Except (Fault R) _) = .ok cutRows) :
    (∀ row ∈ cutRows, row.length = n) ∧ cutRows.flatten = x.flatten := by
  unfold rowsOf at h
  obtain ⟨⟨shape, xs⟩, harray, h⟩ := Act.exceptBind_eq_ok.mp h
  have hflatten : xs = x.flatten := by
    unfold array at harray
    split at harray
    · cases harray
      rfl
    · cases harray
  dsimp only at h
  split at h
  · cases h
  · rename_i hdivides
    cases h
    simp only [Bool.or_eq_true, decide_eq_true_eq, not_or, ne_eq, not_not] at hdivides
    have hlength : xs.length = xs.length / n * n :=
      (Nat.div_mul_cancel (Nat.dvd_of_mod_eq_zero hdivides.2)).symm
    exact ⟨length_of_mem_cut hlength, hflatten ▸ flatten_cut hlength⟩

end Nested

namespace Instance

section Meaning

variable {R : Type}

/-- The columns agree in number with the costs, and the parts of the rows with each other. -/
structure Aligned (m : Instance R) : Prop where
  lb : m.lb.length = m.cost.length
  ub : m.ub.length = m.cost.length
  kinds : m.kinds.length = m.cost.length
  width : ∀ row ∈ m.coefficients, row.length = m.cost.length
  coefficients : m.coefficients.length = m.numRows
  senses : m.senses.length = m.numRows
  rhs : m.rhs.length = m.numRows

/-- The instance has the columns. -/
structure Keeps (m : Instance R) (c : Columns R) : Prop where
  cost : m.cost = c.cost
  constant : m.constant = c.constant
  lb : m.lb = c.lb
  ub : m.ub = c.ub
  kinds : m.kinds = c.kinds
  /-- The coefficients are those of the columns, row by row. -/
  coefficients : m.coefficients.flatten = c.coefficients.flatten
  senses : m.senses = c.senses
  rhs : m.rhs = c.rhs
  names : m.names = c.names.getD (numbered "x" c.cost.length)

/-- The variables have the data of the columns, in their order. -/
structure Lists (m : Instance R) (vars : List (Variable R)) : Prop where
  indices : InOrder vars
  lb : vars.map (·.lb) = m.lb
  ub : vars.map (·.ub) = m.ub
  kinds : vars.map (·.kind) = m.kinds
  cost : vars.map (·.cost) = m.cost
  names : vars.map (·.name) = m.names

variable [Arith R]

/-- The solver takes a row whose sense has a meaning only with finite coefficients and a right-hand
side that is a number. -/
def TakesRow (row : List R) (s : Sense) (b : R) : Prop :=
  (∀ code, s ≠ .other code) →
    (∀ x ∈ row, Arith.nonzero x = true → Arith.isInf x = false) ∧ Arith.isNaN b = false

/-- The solver takes the names, bounds and rows of an instance, and a limit of time. -/
structure TakenBySolver (m : Instance R) (limit : Option R) : Prop where
  limit : ∀ seconds ∈ limit, ¬ seconds < 0
  names : ∀ name ∈ m.names, name.utf8ByteSize ≤ longestName
  lb : ∀ x ∈ m.lb, Arith.isNaN x = false
  ub : ∀ x ∈ m.ub, Arith.isNaN x = false
  rows : ∀ (i : ℕ) (row : List R) (s : Sense) (b : R), m.coefficients[i]? = some row →
    m.senses[i]? = some s → m.rhs[i]? = some b → TakesRow row s b

/-- The instance is represented in full. -/
structure Represented (m : Instance R) : Prop where
  numVars : m.numVars = m.cost.length
  problem : ∃ p : Problem R, m.problem = .ok p ∧ m.Lists p.vars ∧ p.rows = m.rows ∧
    p.offset = m.constant
  /-- The relaxation has one column for every cost, unless the solver refuses the data. -/
  relaxation : ∀ limit, (m.TakenBySolver limit ∧ ∃ r, Relaxation.ofInstance m limit = .ok r ∧
      r.numVars = m.cost.length ∧ r.columns m = ⟨m.lb, m.ub⟩) ∨
    (¬ m.TakenBySolver limit ∧ Relaxation.ofInstance m limit = .error .solverRefused)

end Meaning

section Columns

variable {R : Type} {c : Columns R} {m : Instance R}

theorem length_numbered (letter : String) (n : ℕ) : (numbered letter n).length = n := by
  rw [numbered, List.length_map, List.length_range]

/-- An accepted instance is aligned and has the columns that it was made of. -/
theorem aligned_of_columns (h : ofColumns c = .ok m) : m.Aligned ∧ m.Keeps c := by
  unfold ofColumns at h
  obtain ⟨rows, hrows, h⟩ := Act.exceptBind_eq_ok.mp h
  obtain ⟨hwidth, hflatten⟩ := Nested.rowsOf_eq_ok hrows
  dsimp only at h
  split at h
  · cases h
  · rename_i hcolumns
    split at h
    · cases h
    · rename_i hcounts
      cases h
      simp only [ne_eq, Bool.or_eq_true, decide_eq_true_eq, not_or, not_not] at hcolumns hcounts
      obtain ⟨⟨hlb, hub⟩, hkinds⟩ := hcolumns
      obtain ⟨hrhs, hsenses⟩ := hcounts
      have hnumRows : (numbered "c" rows.length).length = rows.length := length_numbered _ _
      exact ⟨⟨(hlb.trans hub).trans hkinds, hub.trans hkinds, hkinds, hwidth, hnumRows.symm,
        hsenses.trans hnumRows.symm, (hrhs.trans hsenses).trans hnumRows.symm⟩,
        ⟨rfl, rfl, rfl, rfl, rfl, hflatten, rfl, rfl, rfl⟩⟩

end Columns

section Problems

variable {R : Type} {m : Instance R}

/-- A variable is read from the columns at its number. -/
theorem variableAt_eq_ok {j : ℕ} {v : Variable R} :
    m.variableAt j = .ok v ↔ v.index = j ∧ m.lb[j]? = some v.lb ∧ m.ub[j]? = some v.ub ∧
      m.kinds[j]? = some v.kind ∧ m.cost[j]? = some v.cost ∧ m.names[j]? = some v.name := by
  unfold variableAt
  simp only [Act.exceptBind_eq_ok, Vec.get_eq_ok, Vec.at?_natCast]
  constructor
  · rintro ⟨lb, hlb, ub, hub, kind, hkind, cost, hcost, name, hname, h⟩
    cases h
    exact ⟨rfl, hlb, hub, hkind, hcost, hname⟩
  · rintro ⟨hindex, hlb, hub, hkind, hcost, hname⟩
    exact ⟨_, hlb, _, hub, _, hkind, _, hcost, _, hname, by rw [← hindex]; rfl⟩

theorem variableAt_eq_error {j : ℕ} {e : Fault R} (h : m.variableAt j = .error e) :
    e = .noSuchEntry := by
  unfold variableAt at h
  rcases Act.exceptBind_eq_error h with h | ⟨_, -, h⟩
  · exact Vec.get_eq_error h
  rcases Act.exceptBind_eq_error h with h | ⟨_, -, h⟩
  · exact Vec.get_eq_error h
  rcases Act.exceptBind_eq_error h with h | ⟨_, -, h⟩
  · exact Vec.get_eq_error h
  rcases Act.exceptBind_eq_error h with h | ⟨_, -, h⟩
  · exact Vec.get_eq_error h
  rcases Act.exceptBind_eq_error h with h | ⟨_, -, h⟩
  · exact Vec.get_eq_error h
  · cases h

/-- The part of the columns that belongs to the first variables. -/
theorem map_eq_take {α β : Type} {f : β → α} {xs : List α} {ys : List β} {n : ℕ}
    (h : List.Forall₂ (fun j y => xs[j]? = some (f y)) (List.range n) ys) :
    ys.map f = xs.take n := by
  have hlength : ys.length = n := by rw [← h.length_eq, List.length_range]
  refine List.ext_getElem? fun k => ?_
  rw [List.getElem?_map]
  by_cases hk : k < n
  · obtain ⟨y, hy, hx⟩ := Vec.forall₂_getElem? h (List.getElem?_range hk)
    rw [hy, List.getElem?_take_of_lt hk, hx]
    rfl
  · rw [List.getElem?_eq_none (by omega), List.getElem?_eq_none (by rw [List.length_take]; omega)]
    rfl

/-- The variables of a problem are the first ones of the columns, as many as there are names. -/
theorem problem_eq_ok {p : Problem R} (h : m.problem = .ok p) :
    InOrder p.vars ∧ p.vars.map (·.lb) = m.lb.take m.numVars ∧
      p.vars.map (·.ub) = m.ub.take m.numVars ∧ p.vars.map (·.kind) = m.kinds.take m.numVars ∧
      p.vars.map (·.cost) = m.cost.take m.numVars ∧ p.vars.map (·.name) = m.names ∧
      p.rows = m.rows ∧ p.offset = m.constant := by
  unfold problem at h
  obtain ⟨vars, hvars, h⟩ := Act.exceptBind_eq_ok.mp h
  cases h
  have hread := (Vec.mapM_eq_ok.mp hvars).imp fun _ _ => variableAt_eq_ok.mp
  have hlength : vars.length = m.numVars := by rw [← hread.length_eq, List.length_range]
  have horder : InOrder vars := by
    unfold InOrder NumberedFrom
    rw [hlength, ← List.range_eq_range', ← List.forall₂_eq_eq_eq, List.forall₂_map_left_iff,
      List.forall₂_map_right_iff]
    exact (hread.imp fun _ _ hv => hv.1).flip
  refine ⟨horder, map_eq_take (hread.imp fun _ _ hv => hv.2.1),
    map_eq_take (hread.imp fun _ _ hv => hv.2.2.1),
    map_eq_take (hread.imp fun _ _ hv => hv.2.2.2.1),
    map_eq_take (hread.imp fun _ _ hv => hv.2.2.2.2.1), ?_, rfl, rfl⟩
  rw [map_eq_take (hread.imp fun _ _ hv => hv.2.2.2.2.2), numVars, List.take_length]

/-- An aligned instance without more names than costs is a problem. -/
theorem exists_problem (ha : m.Aligned) (hnames : m.numVars ≤ m.cost.length) :
    ∃ p, (m.problem : Except (Fault R) _) = .ok p := by
  have hvariable (j : ℕ) (hj : j ∈ List.range m.numVars) :
      ∃ v, (m.variableAt j : Except (Fault R) _) = .ok v := by
    have hj := List.mem_range.mp hj
    have hread {α : Type} {xs : List α} (hlength : xs.length = m.cost.length) :
        ∃ x, xs[j]? = some x := ⟨_, List.getElem?_eq_getElem (by omega)⟩
    obtain ⟨lb, hlb⟩ := hread ha.lb
    obtain ⟨ub, hub⟩ := hread ha.ub
    obtain ⟨kind, hkind⟩ := hread ha.kinds
    obtain ⟨cost, hcost⟩ := hread rfl
    have hname : m.names[j]? = some m.names[j] := List.getElem?_eq_getElem hj
    exact ⟨⟨j, lb, ub, kind, cost, m.names[j]⟩,
      variableAt_eq_ok.mpr ⟨rfl, hlb, hub, hkind, hcost, hname⟩⟩
  obtain ⟨vars, hvars⟩ := Vec.exists_mapM hvariable
  exact ⟨_, Act.exceptBind_of_ok hvars⟩

/-- With more names than costs there is no problem. -/
theorem problem_of_more_names (h : m.cost.length < m.numVars) :
    (m.problem : Except (Fault R) _) = .error .noSuchEntry := by
  cases hp : (m.problem : Except (Fault R) _) with
  | ok p =>
      obtain ⟨-, -, -, -, hcost, hnames, -⟩ := problem_eq_ok hp
      have hcosts := congrArg List.length hcost
      have hcount := congrArg List.length hnames
      rw [List.length_map, List.length_take] at hcosts
      rw [List.length_map, ← numVars] at hcount
      omega
  | error e =>
      rcases Act.exceptBind_eq_error hp with h | ⟨_, -, h⟩
      · obtain ⟨j, -, hj⟩ := Vec.mapM_eq_error h
        rw [variableAt_eq_error hj]
      · cases h

/-- The problem of an aligned instance with a name for every cost lists all variables. -/
theorem lists_of_problem {p : Problem R} (ha : m.Aligned) (hnames : m.numVars = m.cost.length)
    (h : m.problem = .ok p) : m.Lists p.vars := by
  obtain ⟨horder, hlb, hub, hkinds, hcost, hnames', -⟩ := problem_eq_ok h
  rw [hnames, List.take_of_length_le (Nat.le_of_eq ha.lb)] at hlb
  rw [hnames, List.take_of_length_le (Nat.le_of_eq ha.ub)] at hub
  rw [hnames, List.take_of_length_le (Nat.le_of_eq ha.kinds)] at hkinds
  rw [hnames, List.take_length] at hcost
  exact ⟨horder, hlb, hub, hkinds, hcost, hnames'⟩

end Problems

section Relaxations

variable {R : Type} [Arith R] {m : Instance R} {limit : Option R}

/-- A row that is not longer than there are variables has terms. -/
theorem rowTerms_of_length {n : ℕ} {row : List R} (h : row.length ≤ n) :
    Relaxation.rowTerms n row = .ok ((row.zipIdx.filter fun (x, _) => Arith.nonzero x).map
      fun (x, j) => (j, x)) := by
  unfold Relaxation.rowTerms
  refine if_neg ?_
  rw [List.any_eq_true]
  rintro ⟨⟨x, j⟩, hmem, hj⟩
  have hlt : j < row.length := by
    simpa using List.snd_lt_of_mem_zipIdx (List.mem_of_mem_filter hmem)
  have := of_decide_eq_true hj
  omega

/-- What is asked of the coefficients of a row is asked of those that are not zero. -/
theorem takesRow_iff {row : List R} {s : Sense} {b : R} :
    Relaxation.takesRow ⟨(row.zipIdx.filter fun (x, _) => Arith.nonzero x).map
      fun (x, j) => (j, x), s, b⟩ = true ↔
        (∀ x ∈ row, Arith.nonzero x = true → Arith.isInf x = false) ∧ Arith.isNaN b = false := by
  unfold Relaxation.takesRow
  rw [Bool.and_eq_true, List.all_map, List.all_eq_true, Bool.not_eq_true']
  refine and_congr_left fun _ => ⟨fun h x hx hnonzero => ?_, fun h p hp => ?_⟩
  · obtain ⟨j, hj, hx⟩ := List.getElem_of_mem hx
    have hmem : (x, j) ∈ row.zipIdx := by
      rw [List.mem_zipIdx_iff_getElem?, ← hx, List.getElem?_eq_getElem hj]
    simpa using h (x, j) (List.mem_filter.mpr ⟨hmem, hnonzero⟩)
  · obtain ⟨hmem, hnonzero⟩ := List.mem_filter.mp hp
    simpa using h p.1 (List.fst_mem_of_mem_zipIdx hmem) hnonzero

/-- A row is built, or the solver refuses it. -/
theorem rowAt_cases {i : ℕ} {row : List R} {s : Sense} {b : R}
    (hrow : m.coefficients[i]? = some row) (hs : m.senses[i]? = some s) (hb : m.rhs[i]? = some b)
    (hlength : row.length ≤ m.numVars) :
    (TakesRow row s b ∧ ∃ built, Relaxation.rowAt m i = .ok built) ∨
      (¬ TakesRow row s b ∧ Relaxation.rowAt m i = .error .solverRefused) := by
  unfold Relaxation.rowAt
  rw [Act.exceptBind_of_ok (Vec.get_eq_ok.mpr (Vec.at?_of_getElem? hrow)),
    Act.exceptBind_of_ok (rowTerms_of_length hlength),
    Act.exceptBind_of_ok (Vec.get_eq_ok.mpr (Vec.at?_of_getElem? hs)),
    Act.exceptBind_of_ok (Vec.get_eq_ok.mpr (Vec.at?_of_getElem? hb))]
  dsimp only
  split
  · exact .inl ⟨fun h => absurd rfl (h _), none, rfl⟩
  · rename_i hmeaning
    by_cases htakes : Relaxation.takesRow ⟨(row.zipIdx.filter fun (x, _) => Arith.nonzero x).map
      fun (x, j) => (j, x), s, b⟩ = true
    · rw [if_pos htakes]
      exact .inl ⟨fun _ => takesRow_iff.mp htakes, _, rfl⟩
    · rw [if_neg htakes]
      exact .inr ⟨fun h => htakes (takesRow_iff.mpr (h hmeaning)), rfl⟩

/-- The solver takes the columns of variables with short names and with bounds that are numbers. -/
theorem takesColumns_iff {vars : List (Variable R)} (h : m.Lists vars) :
    vars.all Relaxation.takesColumn = true ↔ (∀ name ∈ m.names, name.utf8ByteSize ≤ longestName) ∧
      (∀ x ∈ m.lb, Arith.isNaN x = false) ∧ ∀ x ∈ m.ub, Arith.isNaN x = false := by
  rw [← h.names, ← h.lb, ← h.ub]
  simp only [List.all_eq_true, Relaxation.takesColumn, Bool.and_eq_true, decide_eq_true_eq,
    Bool.not_eq_true', List.forall_mem_map, ← forall_and]
  exact forall₂_congr fun v _ => and_assoc

omit [Arith R] in
/-- The data of a row of an aligned instance. -/
theorem Aligned.exists_row (ha : m.Aligned) {i : ℕ} (hi : i < m.numRows) :
    ∃ row s b, m.coefficients[i]? = some row ∧ row.length = m.cost.length ∧
      m.senses[i]? = some s ∧ m.rhs[i]? = some b := by
  have hrow : i < m.coefficients.length := by rwa [ha.coefficients]
  exact ⟨_, _, _, List.getElem?_eq_getElem hrow, ha.width _ (List.getElem_mem hrow),
    List.getElem?_eq_getElem (by rwa [ha.senses]), List.getElem?_eq_getElem (by rwa [ha.rhs])⟩

/-- The rows are built, or the solver refuses one of them. -/
theorem rows_cases (ha : m.Aligned) (hnames : m.numVars = m.cost.length) :
    ((∀ (i : ℕ) (row : List R) (s : Sense) (b : R), m.coefficients[i]? = some row →
        m.senses[i]? = some s → m.rhs[i]? = some b → TakesRow row s b) ∧
      ∃ rows, (List.range m.numRows).mapM (Relaxation.rowAt m) = .ok rows) ∨
    ((∃ (i : ℕ) (row : List R) (s : Sense) (b : R), m.coefficients[i]? = some row ∧
        m.senses[i]? = some s ∧ m.rhs[i]? = some b ∧ ¬ TakesRow row s b) ∧
      (List.range m.numRows).mapM (Relaxation.rowAt m) = .error .solverRefused) := by
  have hcases {i : ℕ} {row : List R} {s : Sense} {b : R} (hrow : m.coefficients[i]? = some row)
      (hs : m.senses[i]? = some s) (hb : m.rhs[i]? = some b) :=
    rowAt_cases hrow hs hb (Nat.le_of_eq ((ha.width row (List.mem_of_getElem? hrow)).trans
      hnames.symm))
  cases hrows : (List.range m.numRows).mapM (Relaxation.rowAt m) with
  | ok rows =>
      refine .inl ⟨fun i row s b hrow hs hb => ?_, rows, rfl⟩
      have hi : i < m.numRows := by
        rw [← ha.coefficients]
        exact (List.getElem?_eq_some_iff.mp hrow).1
      obtain ⟨built, -, hbuilt⟩ :=
        Vec.forall₂_getElem? (Vec.mapM_eq_ok.mp hrows) (List.getElem?_range hi)
      rcases hcases hrow hs hb with ⟨htakes, -⟩ | ⟨-, herror⟩
      · exact htakes
      · cases hbuilt.symm.trans herror
  | error e =>
      obtain ⟨i, hi, herror⟩ := Vec.mapM_eq_error hrows
      obtain ⟨row, s, b, hrow, -, hs, hb⟩ := ha.exists_row (List.mem_range.mp hi)
      rcases hcases hrow hs hb with ⟨-, built, hbuilt⟩ | ⟨htakes, hrefused⟩
      · cases hbuilt.symm.trans herror
      · cases herror.symm.trans hrefused
        exact .inr ⟨⟨i, row, s, b, hrow, hs, hb, htakes⟩, rfl⟩

/-- The relaxation of an aligned instance with a name for every cost has all columns, unless the
solver refuses the data. -/
theorem relaxation_cases (ha : m.Aligned) (hnames : m.numVars = m.cost.length) (limit : Option R) :
    (m.TakenBySolver limit ∧ ∃ r, Relaxation.ofInstance m limit = .ok r ∧
        r.numVars = m.cost.length ∧ r.columns m = ⟨m.lb, m.ub⟩) ∨
      (¬ m.TakenBySolver limit ∧ Relaxation.ofInstance m limit = .error .solverRefused) := by
  obtain ⟨p, hp⟩ := exists_problem ha (Nat.le_of_eq hnames)
  have hcolumns := takesColumns_iff (lists_of_problem ha hnames hp)
  have hlimit : (limit.any fun seconds => decide (seconds < 0)) = true ↔
      ¬ ∀ seconds ∈ limit, ¬ seconds < 0 := by
    cases limit <;> simp
  unfold Relaxation.ofInstance
  rw [Act.exceptBind_of_ok hp]
  dsimp only
  split
  · rename_i hlate
    exact .inr ⟨fun h => hlimit.mp hlate h.limit, rfl⟩
  rename_i hintime
  split
  · rename_i hrefused
    refine .inr ⟨fun h => ?_, rfl⟩
    rw [hcolumns.mpr ⟨h.names, h.lb, h.ub⟩] at hrefused
    cases hrefused
  rename_i htaken
  rw [Bool.not_eq_true', Bool.not_eq_false, hcolumns] at htaken
  rcases rows_cases ha hnames with
    ⟨htakes, rows, hrows⟩ | ⟨⟨i, row, s, b, hrow, hs, hb, htakes⟩, hrows⟩
  · refine .inl ⟨⟨not_not.mp (mt hlimit.mpr hintime), htaken.1, htaken.2.1, htaken.2.2, htakes⟩, _,
      Act.exceptBind_of_ok hrows, hnames, ?_⟩
    rw [Relaxation.columns, hnames, List.take_of_length_le (Nat.le_of_eq ha.lb),
      List.take_of_length_le (Nat.le_of_eq ha.ub)]
  · refine .inr ⟨fun h => htakes (h.rows i row s b hrow hs hb), ?_⟩
    rw [hrows]
    rfl

/-- An aligned instance is represented if there is a name for every cost. -/
theorem represented_of_names (ha : m.Aligned) (hnames : m.numVars = m.cost.length) :
    m.Represented := by
  obtain ⟨p, hp⟩ := exists_problem ha (Nat.le_of_eq hnames)
  obtain ⟨-, -, -, -, -, -, hrows, hoffset⟩ := problem_eq_ok hp
  exact ⟨hnames, ⟨p, hp, lists_of_problem ha hnames hp, hrows, hoffset⟩, relaxation_cases ha hnames⟩

end Relaxations

section Result

variable {R : Type} [Arith R] {c : Columns R} {m : Instance R}

/-- An instance that is accepted has the columns it was made of, and they agree in number.  It is
represented in full if and only if there are as many names as costs, or none were given.  With fewer
names the problem loses the variables without a name; with more there is neither a problem nor a
relaxation. -/
theorem accepted_instance_represented_iff (h : ofColumns c = .ok m) :
    m.Keeps c ∧ m.Aligned ∧
      (m.Represented ↔ ∀ names ∈ c.names, names.length = c.cost.length) ∧
      (∀ names ∈ c.names, names.length < c.cost.length →
        ∃ p : Problem R, m.problem = .ok p ∧ p.vars.length = names.length) ∧
      (∀ names ∈ c.names, c.cost.length < names.length →
        (m.problem : Except (Fault R) _) = .error .noSuchEntry ∧
          ∀ limit, Relaxation.ofInstance m limit = .error .noSuchEntry) := by
  obtain ⟨ha, hk⟩ := aligned_of_columns h
  have hnumVars : ∀ names ∈ c.names, m.numVars = names.length := fun names hnames => by
    rw [numVars, hk.names, Option.mem_def.mp hnames, Option.getD_some]
  refine ⟨hk, ha, ⟨fun hrepresented names hnames => ?_, fun hnames => ?_⟩,
    fun names hnames hfewer => ?_, fun names hnames hmore => ?_⟩
  · rw [← hnumVars names hnames, hrepresented.numVars, hk.cost]
  · refine represented_of_names ha ?_
    rw [hk.cost]
    cases hgiven : c.names with
    | none => rw [numVars, hk.names, hgiven, Option.getD_none, length_numbered]
    | some names => rw [hnumVars names hgiven, hnames names hgiven]
  · rw [← hk.cost, ← hnumVars names hnames] at hfewer
    obtain ⟨p, hp⟩ := exists_problem ha (Nat.le_of_lt hfewer)
    obtain ⟨-, -, -, -, -, hlisted, -⟩ := problem_eq_ok hp
    refine ⟨p, hp, ?_⟩
    rw [← hnumVars names hnames, numVars, ← hlisted, List.length_map]
  · rw [← hk.cost, ← hnumVars names hnames] at hmore
    have herror := problem_of_more_names hmore
    refine ⟨herror, fun limit => ?_⟩
    unfold Relaxation.ofInstance
    rw [herror]
    rfl

/-- Two binary variables and the row `x₀ ≤ 4`, with the given names. -/
def twoColumns (names : Option (List String)) : Columns ExtRat :=
  { cost := [1, 2]
    coefficients := .list [.list [.number 1, .number 0]]
    senses := [.atMost]
    rhs := [4]
    lb := [0, 0]
    ub := [1, 1]
    kinds := [.binary, .binary]
    constant := 0
    names
    name := "instance" }

/-- Without given names two columns are represented. -/
theorem two_columns_represented :
    ∃ m, ofColumns (twoColumns none) = .ok m ∧ m.Aligned ∧ m.Represented := by
  have h : ofColumns (twoColumns none) = .ok _ := rfl
  obtain ⟨-, ha, hrepresented, -⟩ := accepted_instance_represented_iff h
  exact ⟨_, h, ha, hrepresented.mpr nofun⟩

/-- Two columns with one name are accepted, and the problem and the relaxation lose the second. -/
theorem unnamed_column_lost :
    ∃ m, ofColumns (twoColumns (some ["x"])) = .ok m ∧ m.cost.length = 2 ∧ m.numVars = 1 ∧
      (∃ p : Problem ExtRat, m.problem = .ok p ∧ p.vars.length = 1) ∧
      ∃ r, Relaxation.ofInstance m none = .ok r ∧ r.numVars = 1 :=
  ⟨_, rfl, rfl, rfl, ⟨_, rfl, rfl⟩, _, rfl, rfl⟩

end Result

end Instance

end MipPump
