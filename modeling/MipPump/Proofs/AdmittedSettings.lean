import MipPump.Proofs.EpochWeights

/-!
# Which settings are admitted

Settings are asked for by name and admitted as a whole, or refused with the first option that is
out of its range.

* `RequestedSettings.AsksFor`: settings stand for a request, with the same options and the policies
  of those names.
* `Options.InRange`: every option is in its range.  What "not negative" means of a number is left
  open, since that is where the checks and the ranges differ.
* `toSettings_eq_ok`: settings are admitted if and only if they are asked for and no number that must
  not be negative is below zero.
* `inRange_nonneg_iff`: what has passed the checks is in its range, unless it is no number.
* `Settings.RecallsRepetitions`: the cycle test finds every candidate of its history again under the
  weight that it was stored with.

**Result.**  `settings_admitted_iff`: which settings are admitted, which of those are in their ranges
and which of them recall repetitions.  `admits_no_number` are admitted settings that do neither.
-/

namespace MipPump

section Names

variable {text : String}

theorem RoundingPolicy.ofName?_eq_some {p : RoundingPolicy} :
    ofName? text = some p ↔ text = p.name := by
  refine ⟨fun h => ?_, fun h => h ▸ ofName?_name p⟩
  unfold ofName? at h
  split at h <;> cases h <;> rfl

theorem TieBreak.ofName?_eq_some {p : TieBreak} :
    ofName? text = some p ↔ text = p.name := by
  refine ⟨fun h => ?_, fun h => h ▸ ofName?_name p⟩
  unfold ofName? at h
  split at h <;> cases h <;> rfl

theorem RankingPolicy.ofName?_eq_some {p : RankingPolicy} :
    ofName? text = some p ↔ text = p.name := by
  refine ⟨fun h => ?_, fun h => h ▸ ofName?_name p⟩
  unfold ofName? at h
  split at h <;> cases h <;> rfl

theorem AlphaSchedule.ofName?_eq_some {p : AlphaSchedule} :
    ofName? text = some p ↔ text = p.name := by
  refine ⟨fun h => ?_, fun h => h ▸ ofName?_name p⟩
  unfold ofName? at h
  split at h <;> cases h <;> rfl

end Names

section Requests

variable {R : Type} [Arith R]

/-- The settings that a request stands for, if they are admitted. -/
structure RequestedSettings.AsksFor (s : RequestedSettings R) (t : Settings R) : Prop where
  options : s.toOptions = t.toOptions
  rounding : s.rounding = t.rounding.name
  tieBreak : s.tieBreak = t.tieBreak.name
  ranking : s.ranking = t.ranking.name
  alphaSchedule : s.alphaSchedule = t.alphaSchedule.name
  /-- Every option that is looked at has a value; no setting is a reason of failure. -/
  complete : ∀ option ∈ s.blanks, option = .choice .failureReason

/-- Every option is in its range. -/
@[mk_iff]
structure Options.InRange (o : Options R) (Nonneg : R → Prop) : Prop where
  maxRestarts : 0 ≤ o.maxRestarts
  /-- There may be no budget. -/
  timeBudget : ∀ budget ∈ o.timeBudget, Nonneg budget
  perturbationFraction : 0 < o.perturbationFraction ∧ o.perturbationFraction ≤ 1
  perturbationStep : 1 ≤ o.perturbationStep
  visitPenalty : Nonneg o.visitPenalty
  stallPatience : 1 ≤ o.stallPatience
  stallCeiling : 0 ≤ o.stallCeiling
  initialAlpha : 0 ≤ o.initialAlpha ∧ o.initialAlpha ≤ 1
  alphaDecay : 0 ≤ o.alphaDecay ∧ o.alphaDecay ≤ 1
  alphaStep : Nonneg o.alphaStep
  cycleAlphaTolerance : Nonneg o.cycleAlphaTolerance
  cycleHistorySize : 1 ≤ o.cycleHistorySize
  toleranceEpsilon : 0 < o.toleranceEpsilon ∧ o.toleranceEpsilon < Arith.ratio 1 2
  verbosityInterval : 1 ≤ o.verbosityInterval

/-- The numbers that are only asked not to be negative. -/
def Options.halfOpen (o : Options R) : List R :=
  o.timeBudget.toList ++ [o.visitPenalty, o.alphaStep, o.cycleAlphaTolerance]

/-- A request by the names of policies stands for the settings it was made from. -/
theorem Settings.asksFor_requested (t : Settings R) : t.requested.AsksFor t :=
  ⟨rfl, rfl, rfl, rfl, rfl, nofun⟩

/-- A candidate of a history is found again under the weight that it was stored with, if that is a
weight of an epoch. -/
def Settings.RecallsRepetitions (t : Settings R) : Prop :=
  ∀ (history : History R) (mark : Mark R) (n : ℕ), mark ∈ history.entries →
    mark.alpha = t.alphaAfter n →
      history.contains mark.candidate (t.alphaAfter n) t.cycleAlphaTolerance = true

end Requests

section Checks

variable {R : Type} [Arith R] {o : Options R} {s : RequestedSettings R} {t : Settings R}

/-- Being in range depends only on what is said of the half-open numbers. -/
theorem Options.InRange.imp {P Q : R → Prop} (h : o.InRange P)
    (hQ : ∀ x ∈ o.halfOpen, P x → Q x) : o.InRange Q :=
  { h with
    timeBudget := fun budget hbudget =>
      hQ budget (by simp [halfOpen, Option.mem_def.mp hbudget]) (h.timeBudget budget hbudget)
    visitPenalty := hQ _ (by simp [halfOpen]) h.visitPenalty
    alphaStep := hQ _ (by simp [halfOpen]) h.alphaStep
    cycleAlphaTolerance := hQ _ (by simp [halfOpen]) h.cycleAlphaTolerance }

/-- What is in range is said of every half-open number. -/
theorem Options.InRange.of_mem {P : R → Prop} (h : o.InRange P) {x : R} (hx : x ∈ o.halfOpen) :
    P x := by
  simp only [halfOpen, List.mem_append, Option.mem_toList, List.mem_cons, List.not_mem_nil,
    or_false] at hx
  rcases hx with hbudget | rfl | rfl | rfl
  · exact h.timeBudget x hbudget
  · exact h.visitPenalty
  · exact h.alphaStep
  · exact h.cycleAlphaTolerance

omit [Arith R] in
theorem RangeCheck.admitted_atLeast {option : RangedOption} {least n : ℤ} :
    (RangeCheck.atLeast (R := R) option least n).admitted = true ↔ least ≤ n := by
  simp [RangeCheck.atLeast]

theorem RangeCheck.admitted_nonnegative {option : RangedOption} {x : R} :
    (RangeCheck.nonnegative option x).admitted = true ↔ ¬ x < 0 := by
  simp [RangeCheck.nonnegative]

/-- Checks are passed by the options in their ranges, where a number counts as not negative if it is
not below zero. -/
theorem Options.checks_admitted_iff (hzero : ¬ (0 : R) < 0) :
    (∀ c ∈ o.checks, c.admitted = true) ↔ o.InRange (¬ · < 0) := by
  have hbudget : ¬ o.timeBudget.getD 0 < 0 ↔ ∀ budget ∈ o.timeBudget, ¬ budget < 0 := by
    cases o.timeBudget with
    | none => simpa using hzero
    | some budget => simp
  simp [checks, RangeCheck.admitted_atLeast, RangeCheck.admitted_nonnegative, RangeCheck.inside,
    hbudget, Options.inRange_iff]

/-- Every ranged option is checked. -/
theorem Options.exists_check (o : Options R) (option : RangedOption) :
    ∃ c ∈ o.checks, c.option = option := by
  cases option <;>
    simp [checks, RangeCheck.atLeast, RangeCheck.nonnegative, RangeCheck.inside]

/-- The checks pass if every ranged option has a value and passes its own. -/
theorem RequestedSettings.check_eq_ok {u : Unit} :
    s.check = .ok u ↔
      (∀ option, .ranged option ∉ s.blanks) ∧ ∀ c ∈ s.toOptions.checks, c.admitted = true := by
  constructor
  · intro h
    have hrun (c : RangeCheck R) (hc : c ∈ s.toOptions.checks) :
        .ranged c.option ∉ s.blanks ∧ c.admitted = true := by
      have hc := Vec.forM_eq_ok h c hc
      simp only [List.contains_eq_mem, decide_eq_true_eq, RangeCheck.run] at hc
      split at hc
      · cases hc
      · split at hc
        · exact ⟨‹_›, ‹_›⟩
        · cases hc
    refine ⟨fun option => ?_, fun c hc => (hrun c hc).2⟩
    obtain ⟨c, hc, rfl⟩ := s.toOptions.exists_check option
    exact (hrun c hc).1
  · rintro ⟨hgiven, hadmitted⟩
    refine Vec.forM_of_ok fun c hc => ?_
    rw [if_neg (by simpa using hgiven c.option), RangeCheck.run, if_pos (hadmitted c hc)]

/-- A member of a family is chosen by a name that is given and stands for it. -/
theorem RequestedSettings.choice_eq_ok {α : Type} {family : ChoiceFamily}
    {ofName? : String → Option α} {name : String} {a : α} :
    s.choice family ofName? name = .ok a ↔ .choice family ∉ s.blanks ∧ ofName? name = some a := by
  unfold choice choose
  by_cases hblank : .choice family ∈ s.blanks
  · simp [hblank]
  · cases ofName? name <;> simp [hblank]

/-- Settings are admitted if and only if they are asked for and pass the checks. -/
theorem RequestedSettings.toSettings_eq_ok (hzero : ¬ (0 : R) < 0) :
    s.toSettings = .ok t ↔ s.AsksFor t ∧ t.InRange (¬ · < 0) := by
  unfold toSettings
  simp only [Act.exceptBind_eq_ok, choice_eq_ok, check_eq_ok, Options.checks_admitted_iff hzero,
    RoundingPolicy.ofName?_eq_some, TieBreak.ofName?_eq_some, RankingPolicy.ofName?_eq_some,
    AlphaSchedule.ofName?_eq_some]
  constructor
  · rintro ⟨rounding, ⟨hround, hrounding⟩, tieBreak, ⟨htie, htieBreak⟩, ranking, ⟨hrank, hranking⟩,
      schedule, ⟨halpha, hschedule⟩, -, ⟨hvalued, hrange⟩, ht⟩
    cases ht
    refine ⟨⟨rfl, hrounding, htieBreak, hranking, hschedule, fun option hoption => ?_⟩, hrange⟩
    match option with
    | .ranged option => exact absurd hoption (hvalued option)
    | .choice .failureReason => rfl
    | .choice .rounding => exact absurd hoption hround
    | .choice .tieBreak => exact absurd hoption htie
    | .choice .ranking => exact absurd hoption hrank
    | .choice .alphaSchedule => exact absurd hoption halpha
  · rintro ⟨⟨hoptions, hrounding, htieBreak, hranking, hschedule, hcomplete⟩, hrange⟩
    have hgiven {option : CheckedOption} (h : option ≠ .choice .failureReason) :
        option ∉ s.blanks := fun hoption => h (hcomplete option hoption)
    refine ⟨t.rounding, ⟨hgiven nofun, hrounding⟩, t.tieBreak, ⟨hgiven nofun, htieBreak⟩, t.ranking,
      ⟨hgiven nofun, hranking⟩, t.alphaSchedule, ⟨hgiven nofun, hschedule⟩, (),
      ⟨fun _ => hgiven nofun, hoptions ▸ hrange⟩, ?_⟩
    rw [hoptions]
    rfl

end Checks

section Exact

open ExtRat

variable {o : Options ExtRat} {s : RequestedSettings ExtRat} {t : Settings ExtRat}

/-- A value that is not below zero is at least zero or no number. -/
theorem ExtRat.not_lt_zero_iff {x : ExtRat} : ¬ x < 0 ↔ 0 ≤ x ∨ x = nan := by
  by_cases hx : x = nan
  · simp [hx]
  · simp [not_lt_iff hx (fin_ne_nan 0), hx]

/-- Options that pass the checks are in their ranges unless a number is none. -/
theorem Options.inRange_nonneg_iff (h : o.InRange (¬ · < 0)) :
    o.InRange (0 ≤ ·) ↔ nan ∉ o.halfOpen := by
  constructor
  · intro hrange hnan
    exact not_le_nan (hrange.of_mem hnan)
  · intro hnan
    refine h.imp fun x hx hnonneg => ?_
    exact (not_lt_zero_iff.mp hnonneg).resolve_right fun hx' => hnan (hx' ▸ hx)

theorem sameEntries_self (candidate : List ExtRat) : sameEntries candidate candidate = true := by
  induction candidate with
  | nil => rfl
  | cons x candidate ih => rw [sameEntries, ih, Bool.and_true]; exact decide_eq_true rfl

/-- A mark recalls its own candidate under its own weight if the tolerance is not negative. -/
theorem Mark.recalls_self_iff {mark : Mark ExtRat} {a : ℚ} {tol : ExtRat}
    (ha : mark.alpha = fin a) :
    mark.recalls mark.candidate mark.alpha tol = true ↔ 0 ≤ tol := by
  simp [recalls, sameEntries_self, ha]

/-- The cycle test of admitted settings finds repetitions if the tolerance is at least zero, and
misses one if it is not. -/
theorem RequestedSettings.recallsRepetitions_iff (h : s.toSettings = .ok t) :
    t.RecallsRepetitions ↔ 0 ≤ t.cycleAlphaTolerance := by
  have hweight (n : ℕ) : ∃ q, t.alphaAfter n = fin q := by
    obtain ⟨hnonneg, hle⟩ := RequestedSettings.alphaAfter_inside ExtRat.shareOrder h n
    exact exists_fin_of_le hnonneg (le_trans hle (RequestedSettings.initialAlpha_inside h).2)
  constructor
  · intro hrecalls
    let mark : Mark ExtRat := ⟨[], t.alphaAfter 0⟩
    have hfound := hrecalls { capacity := 1, entries := [mark] } mark 0
      (List.mem_singleton_self mark) rfl
    rw [History.contains, List.any_cons, List.any_nil, Bool.or_false] at hfound
    obtain ⟨q, hq⟩ := hweight 0
    exact (Mark.recalls_self_iff hq).mp hfound
  · intro htol history mark n hmark halpha
    refine List.any_eq_true.mpr ⟨mark, hmark, ?_⟩
    rw [← halpha]
    obtain ⟨q, hq⟩ := hweight n
    exact (Mark.recalls_self_iff (halpha.trans hq)).mpr htol

end Exact

section Result

open ExtRat

/-- Settings are admitted if and only if they are the ones asked for and every option is in its
range, where an option without an upper limit may be no number.  So all settings in their ranges are
admitted; admitted settings are in their ranges exactly if those options are numbers, and their cycle
test finds every exact repetition exactly if its tolerance is one. -/
theorem settings_admitted_iff (s : RequestedSettings ExtRat) (t : Settings ExtRat) :
    (s.toSettings = .ok t ↔ s.AsksFor t ∧ t.InRange fun x => 0 ≤ x ∨ x = nan) ∧
      (s.AsksFor t ∧ t.InRange (0 ≤ ·) → s.toSettings = .ok t) ∧
      (s.toSettings = .ok t →
        (t.InRange (0 ≤ ·) ↔ nan ∉ t.halfOpen) ∧
          (t.RecallsRepetitions ↔ t.cycleAlphaTolerance ≠ nan)) := by
  have hadmitted : s.toSettings = .ok t ↔ s.AsksFor t ∧ t.InRange (¬ · < 0) :=
    RequestedSettings.toSettings_eq_ok (not_lt_self 0)
  refine ⟨?_, fun ⟨hasks, hrange⟩ => ?_, fun h => ⟨?_, ?_⟩⟩
  · simpa only [not_lt_zero_iff] using hadmitted
  · exact hadmitted.mpr ⟨hasks, hrange.imp fun x _ hx => not_lt_zero_iff.mpr (.inl hx)⟩
  · exact Options.inRange_nonneg_iff (hadmitted.mp h).2
  · have htol : 0 ≤ t.cycleAlphaTolerance ∨ t.cycleAlphaTolerance = nan :=
      not_lt_zero_iff.mp (hadmitted.mp h).2.cycleAlphaTolerance
    rw [RequestedSettings.recallsRepetitions_iff h]
    exact ⟨fun hle => (ne_nan_of_le hle).2, fun hnan => htol.resolve_right hnan⟩

/-- The default settings with a time budget. -/
def minuteSettings : Settings ExtRat := { timeBudget := some 60 }

/-- The default settings with a time budget are admitted, in their ranges, and recall repetitions. -/
theorem minute_settings_admitted :
    minuteSettings.requested.toSettings = .ok minuteSettings ∧
      minuteSettings.InRange (0 ≤ ·) ∧ minuteSettings.RecallsRepetitions := by
  obtain ⟨-, hadmits, hranges⟩ := settings_admitted_iff minuteSettings.requested minuteSettings
  have hrange : minuteSettings.InRange (0 ≤ ·) :=
    { maxRestarts := by decide
      timeBudget := fun budget hbudget => by cases hbudget; decide +kernel
      perturbationFraction := by decide +kernel
      perturbationStep := by decide
      visitPenalty := by decide +kernel
      stallPatience := by decide
      stallCeiling := by decide
      initialAlpha := by decide +kernel
      alphaDecay := by decide +kernel
      alphaStep := by decide +kernel
      cycleAlphaTolerance := by decide +kernel
      cycleHistorySize := by decide
      toleranceEpsilon := by decide +kernel
      verbosityInterval := by decide }
  have h := hadmits ⟨Settings.asksFor_requested _, hrange⟩
  exact ⟨h, hrange, (hranges h).2.mpr (by decide +kernel)⟩

/-- Settings whose tolerance of the cycle test is no number. -/
def unmeasuredSettings : Settings ExtRat := { cycleAlphaTolerance := nan }

/-- A tolerance that is no number is admitted, and the cycle test misses the point that was stored
last, under the same weight. -/
theorem admits_no_number :
    unmeasuredSettings.requested.toSettings = .ok unmeasuredSettings ∧
      ¬ 0 ≤ unmeasuredSettings.cycleAlphaTolerance ∧
      History.contains (Recent.push { capacity := 10 } ⟨[1], unmeasuredSettings.alphaAfter 0⟩) [1]
        (unmeasuredSettings.alphaAfter 0) unmeasuredSettings.cycleAlphaTolerance = false :=
  ⟨Settings.toSettings_requested (by decide +kernel), by decide +kernel, by decide +kernel⟩

end Result

end MipPump
