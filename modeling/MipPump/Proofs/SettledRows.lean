import MipPump.Proofs.NarrowedBounds

/-!
# Settled rows

A row that was propagated has nothing more to do.  The least activity of a row takes one bound of
each variable, and what the row changes is the other one; so the row bounds every variable as
before, and a bound that was just moved is not improved again.

* `UpperRow.Settled`: no term of the row has a bound to move.
* `propagate_of_settled`: a settled row changes nothing.
* `UpperRow.Settled.congr`: whether a row is settled depends on the bounds of its variables.
* `UpperRow.KeepsLeast`: the bounds that the least activity takes are kept.
* `settled_of_propagate`: a row is settled once it was propagated.
-/

namespace MipPump
namespace Propagation

section Meaning

variable {R : Type} [Arith R]

/-- No term of the row has a bound to move. -/
def UpperRow.Settled (row : UpperRow R) (limits : Limits R) (b : Box R) : Prop :=
  ∃ a, row.activity b = .ok a ∧ row.checkActivity limits b a = .ok () ∧
    (1 < a.infinite ∨ ∀ term ∈ row.terms.zip a.contributions,
      row.tightenTerm limits a term.1.1 term.1.2 term.2 b = .ok false b)

/-- The bounds that the least activity of the row takes are kept: the lower bound of a variable with
a positive coefficient, and the upper one otherwise. -/
def UpperRow.KeepsLeast (row : UpperRow R) (b b' : Box R) : Prop :=
  ∀ term ∈ row.terms, ∀ l u, b.bounds (term.1 : Nat) = .ok (l, u) →
    ∃ l' u', b'.bounds (term.1 : Nat) = .ok (l', u') ∧ if 0 < term.2 then l' = l else u' = u

end Meaning

end Propagation

section Boxes

variable {R : Type} {b : Box R} {k : Nat} {l u : R}

theorem Box.bounds_set_lb (h : b.bounds k = .ok (l, u)) (l' : R) :
    Box.bounds { b with lb := b.lb.set k l' } k = .ok (l', u) := by
  obtain ⟨hindex, hl, hu⟩ := Box.bounds_eq_ok.mp h
  rw [Vec.at?_natCast] at hl
  refine Box.bounds_eq_ok.mpr ⟨hindex, ?_, hu⟩
  rw [Vec.at?_natCast]
  exact List.getElem?_set_self (List.getElem?_eq_some_iff.mp hl).1

theorem Box.bounds_set_ub (h : b.bounds k = .ok (l, u)) (u' : R) :
    Box.bounds { b with ub := b.ub.set k u' } k = .ok (l, u') := by
  obtain ⟨hindex, hl, hu⟩ := Box.bounds_eq_ok.mp h
  rw [Vec.at?_natCast] at hu
  refine Box.bounds_eq_ok.mpr ⟨hindex, hl, ?_⟩
  rw [Vec.at?_natCast]
  exact List.getElem?_set_self (List.getElem?_eq_some_iff.mp hu).1

end Boxes

namespace Propagation

section Terms

variable {R : Type} [Arith R] {limits : Limits R} {row : UpperRow R} {a : Activity R}
  {b b' : Box R} {k : Nat} {coef c : R} {tightened : Bool}

theorem lowerUpper_congr {isIntegral : Bool} {bound : R} (hsame : b'.bounds k = b.bounds k)
    (h : lowerUpper limits k isIntegral bound b = .ok false b) :
    lowerUpper limits k isIntegral bound b' = .ok false b' := by
  obtain ⟨l, u, hbounds, ⟨hmoved, -⟩ | ⟨-, hnot, -⟩⟩ := lowerUpper_eq_ok.mp h
  · cases hmoved
  · exact lowerUpper_eq_ok.mpr ⟨l, u, hsame.trans hbounds, .inr ⟨rfl, hnot, rfl⟩⟩

theorem raiseLower_congr {isIntegral : Bool} {bound : R} (hsame : b'.bounds k = b.bounds k)
    (h : raiseLower limits k isIntegral bound b = .ok false b) :
    raiseLower limits k isIntegral bound b' = .ok false b' := by
  obtain ⟨l, u, hbounds, ⟨hmoved, -⟩ | ⟨-, hnot, -⟩⟩ := raiseLower_eq_ok.mp h
  · cases hmoved
  · exact raiseLower_eq_ok.mpr ⟨l, u, hsame.trans hbounds, .inr ⟨rfl, hnot, rfl⟩⟩

/-- A term with nothing to move has nothing to move in a box with the same bounds. -/
theorem tightenTerm_congr (hsame : b'.bounds k = b.bounds k)
    (h : row.tightenTerm limits a k coef c b = .ok false b) :
    row.tightenTerm limits a k coef c b' = .ok false b' := by
  rcases tightenTerm_eq_ok.mp h with ⟨hnot, -, -⟩ | ⟨hbounds, isIntegral, hkind, h⟩
  · exact tightenTerm_eq_ok.mpr (.inl ⟨hnot, rfl, rfl⟩)
  · refine tightenTerm_eq_ok.mpr (.inr ⟨hbounds, isIntegral, hkind, ?_⟩)
    split_ifs at h ⊢
    · exact lowerUpper_congr hsame h
    · exact raiseLower_congr hsame h

end Terms

section Again

variable {R Key : Type} [Arith R] [LinearOrder Key] (o : SumOrder R Key) {limits : Limits R}
  (htol : 0 ≤ limits.tol)
include o htol

/-- A new upper bound is not improved by the bound that it was set to, also if it was moved onto the
lower bound. -/
theorem not_improves_larger {isIntegral : Bool} {l bound : R}
    (hcrosses : ¬ bound < l - limits.tol) :
    ¬ bound < Arith.larger bound l - limits.margin isIntegral := by
  unfold Arith.larger
  split_ifs with hmoved
  · exact fun h => hcrosses (lt_sub_tol o (o.numbers_of_le htol).2 h)
  · exact fun h => o.not_lt_self bound (o.lt_of_lt_sub (margin_nonneg o htol isIntegral) h)

theorem not_improves_smaller {isIntegral : Bool} {u bound : R}
    (hcrosses : ¬ u + limits.tol < bound) :
    ¬ Arith.smaller bound u + limits.margin isIntegral < bound := by
  unfold Arith.smaller
  split_ifs with hmoved
  · exact fun h => hcrosses (add_tol_lt o (o.numbers_of_le htol).2 h)
  · exact fun h => o.not_lt_self bound (o.lt_of_add_lt (margin_nonneg o htol isIntegral) h)

variable {b b' : Box R} {k : Nat} {isIntegral tightened : Bool} {bound : R}

theorem lowerUpper_again (h : lowerUpper limits k isIntegral bound b = .ok tightened b') :
    lowerUpper limits k isIntegral bound b' = .ok false b' := by
  obtain ⟨l, u, hbounds, ⟨rfl, -, hcrosses, rfl⟩ | ⟨rfl, -, rfl⟩⟩ := lowerUpper_eq_ok.mp h
  · exact lowerUpper_eq_ok.mpr ⟨l, _, Box.bounds_set_ub hbounds _,
      .inr ⟨rfl, not_improves_larger o htol hcrosses, rfl⟩⟩
  · exact h

theorem raiseLower_again (h : raiseLower limits k isIntegral bound b = .ok tightened b') :
    raiseLower limits k isIntegral bound b' = .ok false b' := by
  obtain ⟨l, u, hbounds, ⟨rfl, -, hcrosses, rfl⟩ | ⟨rfl, -, rfl⟩⟩ := raiseLower_eq_ok.mp h
  · exact raiseLower_eq_ok.mpr ⟨_, u, Box.bounds_set_lb hbounds _,
      .inr ⟨rfl, not_improves_smaller o htol hcrosses, rfl⟩⟩
  · exact h

/-- A term that was tightened has nothing more to move. -/
theorem tightenTerm_again {row : UpperRow R} {a : Activity R} {coef c : R}
    (h : row.tightenTerm limits a k coef c b = .ok tightened b') :
    row.tightenTerm limits a k coef c b' = .ok false b' := by
  rcases tightenTerm_eq_ok.mp h with ⟨hnot, -, -⟩ | ⟨hbounds, isIntegral, hkind, h⟩
  · exact tightenTerm_eq_ok.mpr (.inl ⟨hnot, rfl, rfl⟩)
  · refine tightenTerm_eq_ok.mpr (.inr ⟨hbounds, isIntegral, hkind, ?_⟩)
    split_ifs at h ⊢
    · exact lowerUpper_again o htol h
    · exact raiseLower_again o htol h

end Again

section Lists

variable {R : Type} [Arith R] {limits : Limits R} {row : UpperRow R} {a : Activity R}
  {b b' b'' : Box R} {terms : List ((Nat × R) × R)} {ks : List Nat}

/-- The variables that were tightened are variables of the terms. -/
theorem subset_of_tightenTerms (h : row.tightenTerms limits a terms b = .ok ks b') :
    ∀ k ∈ ks, k ∈ terms.map (·.1.1) := by
  induction terms generalizing b ks with
  | nil =>
      cases h
      exact fun k hk => absurd hk List.not_mem_nil
  | cons term rest ih =>
      obtain ⟨tightened, b₁, others, -, hrest, rfl⟩ := tightenTerms_cons_eq_ok.mp h
      intro k hk
      cases tightened with
      | false => exact List.mem_cons_of_mem _ (ih hrest k hk)
      | true =>
          rcases List.mem_cons.mp hk with rfl | hk
          · exact List.mem_cons_self ..
          · exact List.mem_cons_of_mem _ (ih hrest k hk)

/-- Terms with nothing to move, one after the other. -/
theorem tightenTerms_of_settled
    (h : ∀ term ∈ terms, row.tightenTerm limits a term.1.1 term.1.2 term.2 b = .ok false b) :
    row.tightenTerms limits a terms b = .ok [] b := by
  induction terms with
  | nil => rfl
  | cons term rest ih =>
      exact tightenTerms_cons_eq_ok.mpr ⟨false, b, [], h term (List.mem_cons_self ..),
        ih fun t ht => h t (List.mem_cons_of_mem _ ht), rfl⟩

theorem keepsLower_of_lowerUpper {k : Nat} {isIntegral tightened : Bool} {bound l u : R}
    (h : lowerUpper limits k isIntegral bound b = .ok tightened b')
    (hbounds : b.bounds k = .ok (l, u)) : ∃ u', b'.bounds k = .ok (l, u') := by
  obtain ⟨_, _, -, ⟨-, -, -, rfl⟩ | ⟨-, -, rfl⟩⟩ := lowerUpper_eq_ok.mp h
  · exact ⟨_, Box.bounds_set_ub hbounds _⟩
  · exact ⟨u, hbounds⟩

theorem keepsUpper_of_raiseLower {k : Nat} {isIntegral tightened : Bool} {bound l u : R}
    (h : raiseLower limits k isIntegral bound b = .ok tightened b')
    (hbounds : b.bounds k = .ok (l, u)) : ∃ l', b'.bounds k = .ok (l', u) := by
  obtain ⟨_, _, -, ⟨-, -, -, rfl⟩ | ⟨-, -, rfl⟩⟩ := raiseLower_eq_ok.mp h
  · exact ⟨_, Box.bounds_set_lb hbounds _⟩
  · exact ⟨l, hbounds⟩

theorem UpperRow.KeepsLeast.refl (row : UpperRow R) (b : Box R) : row.KeepsLeast b b :=
  fun _ _ l u hbounds => ⟨l, u, hbounds, by split_ifs <;> rfl⟩

theorem UpperRow.KeepsLeast.trans (h : row.KeepsLeast b b') (h' : row.KeepsLeast b' b'') :
    row.KeepsLeast b b'' := by
  intro term hterm l u hbounds
  obtain ⟨l', u', hbounds', hsame⟩ := h term hterm l u hbounds
  obtain ⟨l'', u'', hbounds'', hsame'⟩ := h' term hterm l' u' hbounds'
  refine ⟨l'', u'', hbounds'', ?_⟩
  split_ifs at hsame hsame' ⊢ <;> exact hsame'.trans hsame

/-- A term moves the bound of its variable that the least activity does not take.  No other term is
about that variable. -/
theorem keepsLeast_of_tightenTerm (hdistinct : (row.terms.map (·.1)).Nodup) {k : Nat} {coef c : R}
    {tightened : Bool} (hterm : (k, coef) ∈ row.terms)
    (h : row.tightenTerm limits a k coef c b = .ok tightened b') : row.KeepsLeast b b' := by
  intro term hmem l u hbounds
  by_cases hk : term.1 = k
  · obtain rfl : term = (k, coef) := List.inj_on_of_nodup_map hdistinct hmem hterm hk
    rcases tightenTerm_eq_ok.mp h with ⟨-, -, rfl⟩ | ⟨-, isIntegral, -, h⟩
    · exact UpperRow.KeepsLeast.refl row _ _ hterm l u hbounds
    · split_ifs at h with hcoef
      · obtain ⟨u', hbounds'⟩ := keepsLower_of_lowerUpper h hbounds
        exact ⟨l, u', hbounds', by rw [if_pos hcoef]⟩
      · obtain ⟨l', hbounds'⟩ := keepsUpper_of_raiseLower h hbounds
        exact ⟨l', u, hbounds', by rw [if_neg hcoef]⟩
  · have houtside := relatesBounds_sameOutside.of_tightenTerm h
    have hother : term.1 ∉ if tightened then [k] else [] := fun hmem => by
      cases tightened
      · exact List.not_mem_nil hmem
      · exact hk (List.mem_singleton.mp hmem)
    exact ⟨l, u, (houtside.bounds hother).trans hbounds, by split_ifs <;> rfl⟩

theorem keepsLeast_of_tightenTerms (hdistinct : (row.terms.map (·.1)).Nodup)
    (hterms : ∀ term ∈ terms, term.1 ∈ row.terms)
    (h : row.tightenTerms limits a terms b = .ok ks b') : row.KeepsLeast b b' := by
  induction terms generalizing b ks with
  | nil =>
      cases h
      exact UpperRow.KeepsLeast.refl row _
  | cons term rest ih =>
      obtain ⟨tightened, b₁, others, hfirst, hrest, -⟩ := tightenTerms_cons_eq_ok.mp h
      have hkept := keepsLeast_of_tightenTerm hdistinct (hterms term (List.mem_cons_self ..)) hfirst
      exact hkept.trans (ih (fun t ht => hterms t (List.mem_cons_of_mem _ ht)) hrest)

/-- The least activity is that of the bounds it takes. -/
theorem UpperRow.KeepsLeast.activity (h : row.KeepsLeast b b') (ha : row.activity b = .ok a) :
    row.activity b' = .ok a := by
  unfold UpperRow.activity at ha ⊢
  obtain ⟨cs, hcs, ha⟩ := Act.exceptBind_eq_ok.mp ha
  obtain ⟨hlength, hterms⟩ := List.forall₂_iff_zip.mp (Vec.mapM_eq_ok.mp hcs)
  refine (Act.exceptBind_of_ok (Vec.mapM_eq_ok.mpr ?_)).trans ha
  refine List.forall₂_iff_zip.mpr ⟨hlength, fun {term c} hmem => ?_⟩
  obtain ⟨⟨l, u⟩, hbounds, hc⟩ := Act.exceptBind_eq_ok.mp (hterms hmem)
  obtain ⟨l', u', hbounds', hsame⟩ := h term (List.of_mem_zip hmem).1 l u hbounds
  refine (Act.exceptBind_of_ok hbounds').trans (Eq.trans ?_ hc)
  unfold contribution
  dsimp only
  split_ifs at hsame ⊢ <;> rw [hsame]

/-- There is a contribution for every term. -/
theorem length_of_activity (ha : row.activity b = .ok a) :
    a.contributions.length = row.terms.length := by
  unfold UpperRow.activity at ha
  obtain ⟨cs, hcs, ha⟩ := Act.exceptBind_eq_ok.mp ha
  cases ha
  exact (Vec.mapM_eq_ok.mp hcs).length_eq.symm

/-- The check of the least activity reads the box only where it stops. -/
theorem checkActivity_congr (h : row.checkActivity limits b a = .ok ()) (b' : Box R) :
    row.checkActivity limits b' a = .ok () := by
  unfold UpperRow.checkActivity at h ⊢
  split_ifs at h ⊢ with hviolated
  · cases hterms : row.terms with
    | nil => rfl
    | cons term rest =>
        rw [hterms] at h
        obtain ⟨bounds, -, h⟩ := Act.exceptBind_eq_ok.mp h
        cases h
  · rfl

end Lists

section Rows

variable {R : Type} [Arith R] {limits : Limits R} {row : UpperRow R} {b b' : Box R} {ks : List Nat}

/-- **A settled row changes nothing.** -/
theorem propagate_of_settled (h : row.Settled limits b) : row.propagate limits b = .ok [] b := by
  obtain ⟨a, ha, hcheck, hsettled⟩ := h
  refine propagate_eq_ok.mpr ⟨a, ha, hcheck, ?_⟩
  by_cases hinfinite : 1 < a.infinite
  · exact .inl ⟨hinfinite, rfl, rfl⟩
  · exact .inr ⟨hinfinite, tightenTerms_of_settled (hsettled.resolve_left hinfinite)⟩

/-- Whether a row is settled depends on the bounds of its variables. -/
theorem UpperRow.Settled.congr (h : row.Settled limits b)
    (hsame : ∀ term ∈ row.terms, b'.bounds (term.1 : Nat) = b.bounds (term.1 : Nat)) :
    row.Settled limits b' := by
  obtain ⟨a, ha, hcheck, hsettled⟩ := h
  have hkept : row.KeepsLeast b b' := fun term hterm l u hbounds =>
    ⟨l, u, (hsame term hterm).trans hbounds, by split_ifs <;> rfl⟩
  refine ⟨a, hkept.activity ha, checkActivity_congr hcheck b', hsettled.imp_right fun hall => ?_⟩
  exact fun term hterm => tightenTerm_congr (hsame term.1 (List.of_mem_zip hterm).1)
    (hall term hterm)

variable {Key : Type} [LinearOrder Key] (o : SumOrder R Key) (htol : 0 ≤ limits.tol)
include o htol

/-- Each term that was tightened has nothing more to move at the end, because the terms after it are
about other variables. -/
theorem settled_of_tightenTerms {a : Activity R} {terms : List ((Nat × R) × R)}
    (hdistinct : (terms.map (·.1.1)).Nodup)
    (h : row.tightenTerms limits a terms b = .ok ks b') :
    ∀ term ∈ terms, row.tightenTerm limits a term.1.1 term.1.2 term.2 b' = .ok false b' := by
  induction terms generalizing b ks with
  | nil => exact fun term hterm => absurd hterm List.not_mem_nil
  | cons first rest ih =>
      obtain ⟨tightened, b₁, others, hfirst, hrest, -⟩ := tightenTerms_cons_eq_ok.mp h
      rw [List.map_cons, List.nodup_cons] at hdistinct
      intro term hterm
      rcases List.mem_cons.mp hterm with rfl | hterm
      · have houtside := relatesBounds_sameOutside.of_tightenTerms hrest
        refine tightenTerm_congr (houtside.bounds fun hk => ?_) (tightenTerm_again o htol hfirst)
        exact hdistinct.1 (subset_of_tightenTerms hrest _ hk)
      · exact ih hdistinct.2 hrest term hterm

/-- **A row is settled once it was propagated.** -/
theorem settled_of_propagate (hdistinct : (row.terms.map (·.1)).Nodup)
    (h : row.propagate limits b = .ok ks b') : row.Settled limits b' := by
  obtain ⟨a, ha, hcheck, ⟨hinfinite, -, rfl⟩ | ⟨-, hrun⟩⟩ := propagate_eq_ok.mp h
  · exact ⟨a, ha, hcheck, .inl hinfinite⟩
  · have hterms : ∀ term ∈ row.terms.zip a.contributions, term.1 ∈ row.terms := fun term hterm =>
      (List.of_mem_zip hterm).1
    have hnames : (row.terms.zip a.contributions).map (·.1.1) = row.terms.map (·.1) := by
      have hfirst := congrArg (List.map (·.1)) (List.map_fst_zip (length_of_activity ha).ge)
      rw [List.map_map] at hfirst
      exact hfirst
    refine ⟨a, (keepsLeast_of_tightenTerms hdistinct hterms hrun).activity ha,
      checkActivity_congr hcheck b', .inr ?_⟩
    exact settled_of_tightenTerms o htol (hnames ▸ hdistinct) hrun

end Rows

end Propagation
end MipPump
