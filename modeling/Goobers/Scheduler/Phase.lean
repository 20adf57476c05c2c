import Goobers.Scheduler.Window

/-!
# Does an interval keep its phase?

An interval that is not due should not be put off by the evaluations in between: checking a
two-hour interval every minute must never postpone its next fire. An evaluation that finds
nothing does leave the baseline alone. But the baseline is shared, so if another schedule of
the same workflow fires, every interval that did not starts over from that instant.

An interval is therefore counted when it is due if the evaluations before that were quiet, and
if one of its fires, counted from the first baseline, is in the hour before the evaluation.
-/

namespace Goobers.Scheduler

variable {before now : Int} {schedules : List Schedule}

/-! ## Fires -/

namespace Schedule

/-- The schedule has a fire after the baseline that has come. -/
def Fires (s : Schedule) (before now : Int) : Prop :=
  s.next before ≠ 0 ∧ before < s.next before ∧ s.next before ≤ now

/-- The evaluation refuses the schedule: it does not advance, or fires too often. -/
def Rejected (s : Schedule) (before now : Int) : Prop :=
  (scheduleFires s before (windowFloor before now) now).2 ≠ none

instance (s : Schedule) (before now : Int) : Decidable (s.Fires before now) :=
  inferInstanceAs (Decidable (_ ∧ _))

instance (s : Schedule) (before now : Int) : Decidable (s.Rejected before now) :=
  inferInstanceAs (Decidable (_ ≠ _))

/-- The first fire an evaluation looks at: that after the baseline, or that in the last hour. -/
def windowFire (s : Schedule) (before now : Int) : Int :=
  let floor := windowFloor before now
  if s.next before ≤ floor then nextScheduleInWindow s (s.next before) floor else s.next before

end Schedule

/-- Nothing in the list moves the baseline into another second. -/
def Undisturbed (schedules : List Schedule) (before now : Int) : Prop :=
  (∀ c ∈ schedules, ¬ c.Fires before now) ∨ truncateToSecond now = truncateToSecond before ∨
    ∃ c ∈ schedules, c.Rejected before now

/-- None of the evaluations does. -/
def UndisturbedRun (schedules : List Schedule) : Int → List Int → Prop
  | _, [] => True
  | before, now :: rest =>
    Undisturbed schedules before now ∧ UndisturbedRun schedules (lastEval schedules before now) rest

/-- A fire of an interval with the given first one is in the hour before the instant. -/
def FiresInLastHour (due d now : Int) : Prop :=
  ∃ k : Nat, now - scheduleCatchUpWindow < due + k * d ∧ due + k * d ≤ now

/-- The evaluation goes through and reports the schedule as due. -/
def Counted (schedules : List Schedule) (index : Nat) (before now : Int) : Prop :=
  (evaluateScheduleWindow schedules before now).2 = none ∧
    index ∈ (evaluateScheduleWindow schedules before now).1.indexes

theorem windowFloor_le (h : before < now) : windowFloor before now ≤ now := by
  unfold windowFloor scheduleCatchUpWindow second
  split <;> omega

/-- The counting loop counts something exactly when its first candidate is due. -/
theorem countFires_pos {s : Schedule} {floor next : Int} {left : Nat}
    (hok : (countFires s floor now (left + 1) next).2 = none) :
    0 < (countFires s floor now (left + 1) next).1 ↔ next ≠ 0 ∧ next ≤ now := by
  rw [countFires] at hok ⊢
  by_cases hend : next = 0 ∨ now < next
  · rw [if_pos hend]
    constructor
    · intro h
      cases h
    · rintro ⟨hne, hle⟩
      rcases hend with h0 | hlt
      · exact absurd h0 hne
      · omega
  · rw [if_neg hend] at hok ⊢
    rw [not_or] at hend
    split_ifs at hok ⊢ with hfloor hstuck
    exact ⟨fun _ => ⟨hend.1, by omega⟩, fun _ => Nat.succ_pos _⟩

theorem scheduleFires_pos {s : Schedule} (hlt : before < now) (hok : ¬ s.Rejected before now) :
    (0 < (scheduleFires s before (windowFloor before now) now).1 ∨
      (s.next before ≠ 0 ∧ before < s.next before ∧ s.next before ≤ windowFloor before now)) ↔
      s.Fires before now := by
  have hfloor := windowFloor_le hlt
  unfold Schedule.Rejected at hok
  rw [not_not] at hok
  unfold Schedule.Fires
  unfold scheduleFires at hok ⊢
  by_cases h0 : s.next before = 0
  · simp [h0]
  rw [if_neg h0] at hok ⊢
  by_cases hstuck : s.next before ≤ before
  · rw [if_pos hstuck] at hok
    cases hok
  rw [if_neg hstuck] at hok ⊢
  rw [show maxHourlyFires = 3600 + 1 from rfl] at hok ⊢
  rw [countFires_pos hok]
  -- an expired first fire is due already, whatever the window has after it
  by_cases hexp : s.next before ≤ windowFloor before now
  · constructor
    · intro _
      exact ⟨h0, by omega, by omega⟩
    · intro _
      exact .inr ⟨h0, by omega, hexp⟩
  · rw [if_neg hexp]
    constructor
    · rintro (⟨_, hle⟩ | ⟨_, _, hle⟩)
      · exact ⟨h0, by omega, hle⟩
      · exact absurd hle hexp
    · rintro ⟨_, _, hle⟩
      exact .inl ⟨h0, hle⟩

/-! ## The loop over the schedules -/

section Discover
variable {before floor now : Int}

theorem discover_error_iff {index : Nat} {found : Discovery} :
    (discover before floor now index schedules found).2 = none ↔
      ∀ s ∈ schedules, (scheduleFires s before floor now).2 = none := by
  induction schedules generalizing index found with
  | nil => simp [discover]
  | cons s rest ih =>
    rw [discover]
    cases he : (scheduleFires s before floor now).2 with
    | some e => simp [he]
    | none => simp [he, ih]

/-- Without an error, discovery adds up what each schedule finds by itself. -/
theorem discover_eq {index : Nat} {found : Discovery}
    (hok : ∀ s ∈ schedules, (scheduleFires s before floor now).2 = none) :
    discover before floor now index schedules found =
      ({ missedTicks := found.missedTicks +
           (schedules.map fun s => (scheduleFires s before floor now).1).sum
         indexes := found.indexes ++ ((schedules.zipIdx index).filter fun row =>
           0 < (scheduleFires row.1 before floor now).1).map Prod.snd
         expired := found.expired || schedules.any fun s =>
           s.next before ≠ 0 && before < s.next before && s.next before ≤ floor }, none) := by
  induction schedules generalizing index found with
  | nil => simp [discover]
  | cons s rest ih =>
    rw [discover, hok s (by simp)]
    dsimp only
    rw [ih (fun x hx => hok x (List.mem_cons_of_mem s hx))]
    by_cases hpos : 0 < (scheduleFires s before floor now).1
    · simp [hpos, Nat.add_assoc, Bool.or_assoc]
    · simp [hpos, Nat.add_assoc, Bool.or_assoc]

theorem mem_reported {index : Nat} : index ∈ ((schedules.zipIdx 0).filter fun row =>
      0 < (scheduleFires row.1 before floor now).1).map Prod.snd ↔
    ∃ s, schedules[index]? = some s ∧ 0 < (scheduleFires s before floor now).1 := by
  simp only [List.mem_map, List.mem_filter, Prod.exists, List.mk_mem_zipIdx_iff_getElem?,
    decide_eq_true_eq, exists_eq_right]

end Discover

/-! ## The baseline -/

theorem forall_not_rejected_iff : (∀ c ∈ schedules, ¬ c.Rejected before now) ↔
    ∀ s ∈ schedules, (scheduleFires s before (windowFloor before now) now).2 = none := by
  unfold Schedule.Rejected
  simp

/-- The evaluation moves on exactly when no schedule is rejected and one has fired. -/
theorem lastEval_eq_iff (hlt : before < now) : lastEval schedules before now = now ↔
      (∀ c ∈ schedules, ¬ c.Rejected before now) ∧ ∃ c ∈ schedules, c.Fires before now := by
  have herr : (discover before (windowFloor before now) now 0 schedules {}).2 = none ↔ _ :=
    discover_error_iff
  rw [forall_not_rejected_iff, ← herr]
  unfold lastEval evaluateScheduleWindow
  rw [if_neg (by omega)]
  dsimp only
  cases hfound : (discover before (windowFloor before now) now 0 schedules {}).2 with
  | some e =>
    -- an error keeps the baseline, which is earlier than the instant
    constructor
    · intro heq
      exact absurd heq (by show ¬ before = now; omega)
    · exact fun h => nomatch h.1
  | none =>
    have hok := herr.mp hfound
    have hmoves : (∃ c ∈ schedules, c.Fires before now) ↔
        0 < (discover before (windowFloor before now) now 0 schedules {}).1.missedTicks ∨
          (discover before (windowFloor before now) now 0 schedules {}).1.expired = true := by
      rw [discover_eq hok]
      simp only [Nat.zero_add, List.sum_pos_iff_exists_pos_nat, List.mem_map,
        exists_exists_and_eq_and, Bool.false_or, List.any_eq_true, Bool.and_eq_true,
        decide_eq_true_eq, and_assoc]
      rw [← exists_or]
      refine exists_congr fun c => ?_
      rw [← and_or_left]
      refine and_congr_right fun hc => ?_
      exact (scheduleFires_pos hlt (forall_not_rejected_iff.mpr hok c hc)).symm
    rw [hmoves]
    simp only [Bool.or_eq_true, decide_eq_true_eq, true_and]
    split_ifs with hmove
    · exact ⟨fun _ => hmove, fun _ => rfl⟩
    · exact ⟨fun heq => by omega, fun h => absurd h hmove⟩

theorem lastEval_cases (schedules : List Schedule) (before now : Int) :
    lastEval schedules before now = before ∨ lastEval schedules before now = now := by
  unfold lastEval evaluateScheduleWindow
  split_ifs with hle
  · exact .inl rfl
  · dsimp only
    split
    · exact .inl rfl
    · split_ifs
      · exact .inr rfl
      · exact .inl rfl

/-- An interval keeps its next fire exactly when its evaluation was undisturbed. -/
theorem next_lastEval_iff (schedules : List Schedule) (d before now : Int) :
    (Schedule.every d).next (lastEval schedules before now) = (Schedule.every d).next before ↔
      Undisturbed schedules before now := by
  have hnext : ∀ t u, (Schedule.every d).next t = (Schedule.every d).next u ↔
      truncateToSecond t = truncateToSecond u := by
    intro t u
    show truncateToSecond t + d = truncateToSecond u + d ↔ _
    omega
  rw [hnext]
  by_cases hlt : before < now
  · by_cases heq : lastEval schedules before now = now
    · obtain ⟨hall, c, hc, hfires⟩ := (lastEval_eq_iff hlt).mp heq
      rw [heq]
      constructor
      · exact fun h => .inr (.inl h)
      · rintro (hquiet | hsame | ⟨c', hc', hrej⟩)
        · exact absurd hfires (hquiet c hc)
        · exact hsame
        · exact absurd hrej (hall c' hc')
    · have hstay := (lastEval_cases schedules before now).resolve_right heq
      rw [hstay]
      refine ⟨fun _ => ?_, fun _ => rfl⟩
      by_cases hrej : ∃ c ∈ schedules, c.Rejected before now
      · exact .inr (.inr hrej)
      · refine .inl (fun c hc hfires => heq ((lastEval_eq_iff hlt).mpr ⟨?_, c, hc, hfires⟩))
        exact fun c' hc' hr => hrej ⟨c', hc', hr⟩
  · -- nothing is evaluated at or before the baseline, and nothing fires there
    have hstay : lastEval schedules before now = before := by
      unfold lastEval evaluateScheduleWindow
      rw [if_pos (by omega)]
    rw [hstay]
    refine ⟨fun _ => .inl (fun c _ hfires => ?_), fun _ => rfl⟩
    obtain ⟨_, h1, h2⟩ := hfires
    omega

/-- As long as it is not due, a run of undisturbed evaluations keeps an interval's next fire. -/
theorem next_lastEvalAfter {d : Int} {instants : List Int}
    (hrun : UndisturbedRun schedules before instants) :
    (Schedule.every d).next (lastEvalAfter schedules before instants) =
      (Schedule.every d).next before := by
  induction instants generalizing before with
  | nil => rfl
  | cons now rest ih =>
    obtain ⟨hnow, hrest⟩ := hrun
    have hstep := (next_lastEval_iff schedules d before now).mpr hnow
    exact (ih hrest).trans hstep

section
variable {index : Nat} {s : Schedule} (haccepted : ∀ c ∈ schedules, ¬ c.Rejected before now)
include haccepted

/-- A schedule that is not refused advances. -/
theorem before_lt_next (hmem : s ∈ schedules) (hfirst : s.next before ≠ 0) :
    before < s.next before := by
  by_contra hle
  have hs := forall_not_rejected_iff.mp haccepted s hmem
  unfold scheduleFires at hs
  rw [if_neg hfirst, if_pos (by omega)] at hs
  cases hs

theorem counted_iff (hindex : schedules[index]? = some s) (hfirst : s.next before ≠ 0)
    (hdue : s.next before ≤ now) :
    Counted schedules index before now ↔
      s.windowFire before now ≠ 0 ∧ s.windowFire before now ≤ now := by
  have hok := forall_not_rejected_iff.mp haccepted
  have hmem : s ∈ schedules := List.mem_of_getElem? hindex
  have hadv := before_lt_next haccepted hmem hfirst
  have hs := hok s hmem
  have hpos : 0 < (scheduleFires s before (windowFloor before now) now).1 ↔
      s.windowFire before now ≠ 0 ∧ s.windowFire before now ≤ now := by
    unfold scheduleFires at hs ⊢
    rw [if_neg hfirst, if_neg (by omega)] at hs ⊢
    exact countFires_pos hs
  rw [← hpos]
  unfold Counted evaluateScheduleWindow
  rw [if_neg (by omega)]
  dsimp only
  rw [discover_eq hok]
  refine ⟨fun ⟨_, h⟩ => ?_, fun h => ⟨rfl, mem_reported.mpr ⟨s, hindex, h⟩⟩⟩
  obtain ⟨s', hindex', h'⟩ := mem_reported.mp h
  rw [hindex] at hindex'
  cases hindex'
  exact h'

/-- The loop refuses a fire at or before the beginning of its window. -/
theorem windowFloor_lt_windowFire (hmem : s ∈ schedules) (hfirst : s.next before ≠ 0)
    (hne : s.windowFire before now ≠ 0) (hle : s.windowFire before now ≤ now) :
    windowFloor before now < s.windowFire before now := by
  have hadv := before_lt_next haccepted hmem hfirst
  have hs := forall_not_rejected_iff.mp haccepted s hmem
  by_contra hfloor
  unfold scheduleFires at hs
  rw [if_neg hfirst, if_neg (by omega)] at hs
  change (countFires s _ now (3600 + 1) (s.windowFire before now)).2 = none at hs
  rw [countFires, if_neg (by omega)] at hs
  dsimp only at hs
  rw [if_pos (by omega)] at hs
  cases hs

end

/-! ## Intervals -/

theorem truncateToSecond_le (t : Int) : truncateToSecond t ≤ t := by
  unfold truncateToSecond second
  omega

theorem truncateToSecond_nonneg {t : Int} (h : 0 ≤ t) : 0 ≤ truncateToSecond t := by
  unfold truncateToSecond second
  omega

theorem truncateToSecond_of_dvd {t : Int} (h : second ∣ t) : truncateToSecond t = t := by
  unfold truncateToSecond
  rw [Int.emod_eq_zero_of_dvd h, Int.sub_zero]

theorem second_dvd_truncateToSecond (t : Int) : second ∣ truncateToSecond t :=
  Int.dvd_self_sub_emod

section
variable {d : Int} (hd : 0 < d)
include hd

/-- The fire an evaluation looks at is no later than any fire of the last hour. -/
theorem windowFire_of_firesInLastHour (hfirst : 0 < (Schedule.every d).next before)
    (hadv : before < (Schedule.every d).next before)
    (h : FiresInLastHour ((Schedule.every d).next before) d now) :
    0 < (Schedule.every d).windowFire before now ∧
      (Schedule.every d).windowFire before now ≤ now := by
  obtain ⟨k, hlate, hle⟩ := h
  have hk : 0 ≤ (k : Int) * d := Int.mul_nonneg (Int.natCast_nonneg k) (Int.le_of_lt hd)
  unfold Schedule.windowFire
  dsimp only
  split_ifs with hfloor
  · have hhour : windowFloor before now = now - scheduleCatchUpWindow := by
      unfold windowFloor at hfloor ⊢
      split_ifs at hfloor ⊢
      · rfl
      · omega
    unfold nextScheduleInWindow
    rw [if_pos (by exact hd)]
    generalize (Schedule.every d).next before = due at *
    dsimp only [Schedule.every]
    generalize hq : min (windowFloor before now - due) maxDuration / d = q
    have hnonneg : 0 ≤ min (windowFloor before now - due) maxDuration := by
      unfold maxDuration
      omega
    have hqpos : 0 ≤ q := hq ▸ Int.ediv_nonneg hnonneg (Int.le_of_lt hd)
    have hqle : q * d ≤ windowFloor before now - due :=
      hq ▸ Int.le_trans (Int.ediv_mul_le _ (Int.ne_of_gt hd)) (Int.min_le_left _ _)
    -- the multiple found is at most the floor, so the next one is at most any fire after it
    have hqk : (q + 1) * d ≤ k * d := by
      refine Int.mul_le_mul_of_nonneg_right ?_ (Int.le_of_lt hd)
      by_contra hlt
      have hkq : (k : Int) * d ≤ q * d :=
        Int.mul_le_mul_of_nonneg_right (by omega) (Int.le_of_lt hd)
      omega
    have htrunc := truncateToSecond_le (due + q * d)
    have hq0 : 0 ≤ q * d := Int.mul_nonneg hqpos (Int.le_of_lt hd)
    have hpos := truncateToSecond_nonneg (show 0 ≤ due + q * d by omega)
    rw [Int.add_mul] at hqk
    omega
  · omega

theorem firesInLastHour_of_windowFire (hwhole : second ∣ d)
    (hlate : windowFloor before now < (Schedule.every d).windowFire before now)
    (hle : (Schedule.every d).windowFire before now ≤ now) :
    FiresInLastHour ((Schedule.every d).next before) d now := by
  have hhour : now - scheduleCatchUpWindow ≤ windowFloor before now := by
    unfold windowFloor
    split_ifs <;> omega
  unfold Schedule.windowFire at hlate hle
  dsimp only at hlate hle
  split_ifs at hlate hle with hfloor
  · have hdue : second ∣ (Schedule.every d).next before :=
      Int.dvd_add (second_dvd_truncateToSecond before) hwhole
    unfold nextScheduleInWindow at hlate hle
    rw [if_pos (by exact hd)] at hlate hle
    generalize (Schedule.every d).next before = due at *
    dsimp only [Schedule.every] at hlate hle
    generalize hq : min (windowFloor before now - due) maxDuration / d = q at hlate hle
    have hqpos : 0 ≤ q := by
      refine hq ▸ Int.ediv_nonneg ?_ (Int.le_of_lt hd)
      unfold maxDuration
      omega
    rw [truncateToSecond_of_dvd (Int.dvd_add hdue (Int.dvd_mul_of_dvd_right hwhole))] at hlate hle
    refine ⟨(q + 1).toNat, ?_⟩
    rw [Int.toNat_of_nonneg (by omega), Int.add_mul]
    omega
  · exact ⟨0, by omega, by omega⟩

end

/--
An evaluation leaves the next fire of an interval alone exactly if the interval fires itself
or nothing disturbs it. After undisturbed evaluations the interval is counted by the next
one at or after its due time that refuses no schedule, if one of its fires, counted from
the first baseline, is in the hour before; for a delay of whole seconds exactly then.
-/
theorem interval_phase_kept (schedules : List Schedule) (index : Nat) (d : Int)
    (hindex : schedules[index]? = some (.every d)) (before : Int) :
    (∀ now,
      (¬ (Schedule.every d).Fires before now →
        (Schedule.every d).next (lastEval schedules before now) = (Schedule.every d).next before) ↔
      ((Schedule.every d).Fires before now ∨ Undisturbed schedules before now)) ∧
    ∀ instants now, 0 < d → 0 ≤ before → UndisturbedRun schedules before instants →
      (Schedule.every d).next before ≤ now →
      (∀ c ∈ schedules, ¬ c.Rejected (lastEvalAfter schedules before instants) now) →
      (FiresInLastHour ((Schedule.every d).next before) d now →
        Counted schedules index (lastEvalAfter schedules before instants) now) ∧
      (second ∣ d → Counted schedules index (lastEvalAfter schedules before instants) now →
        FiresInLastHour ((Schedule.every d).next before) d now) := by
  refine ⟨fun now => ?_, fun instants now hd hbefore hrun hdue haccepted => ?_⟩
  · rw [next_lastEval_iff]
    exact or_iff_not_imp_left.symm
  have hpos : 0 < (Schedule.every d).next before := by
    have := truncateToSecond_nonneg hbefore
    show 0 < truncateToSecond before + d
    omega
  have hnext : (Schedule.every d).next (lastEvalAfter schedules before instants) =
    (Schedule.every d).next before := next_lastEvalAfter hrun
  rw [← hnext] at hpos hdue ⊢
  generalize lastEvalAfter schedules before instants = last at *
  have hmem := List.mem_of_getElem? hindex
  have hne := Int.ne_of_gt hpos
  have hadv := before_lt_next haccepted hmem hne
  rw [counted_iff haccepted hindex hne hdue]
  constructor
  · intro h
    obtain ⟨hfire, hle⟩ := windowFire_of_firesInLastHour hd hpos hadv h
    exact ⟨Int.ne_of_gt hfire, hle⟩
  · rintro hwhole ⟨hfire, hle⟩
    exact firesInLastHour_of_windowFire hd hwhole
      (windowFloor_lt_windowFire haccepted hmem hne hfire hle) hle

/-! ## Two intervals -/

def minute : Int := 60 * second

def hour : Int := 60 * minute

/--
Next to a daily schedule that is not due, a two-hour interval is counted by an evaluation four
hours late, which looks at its fire of the last hour.
-/
theorem interval_counted_late :
    Counted [.every (24 * hour), .every (2 * hour)] 1
      (lastEvalAfter [.every (24 * hour), .every (2 * hour)] hour [hour + minute, 2 * hour])
      (7 * hour + 5 * minute) := by
  refine ((interval_phase_kept [.every (24 * hour), .every (2 * hour)] 1 (2 * hour) rfl hour).2
    [hour + minute, 2 * hour] (7 * hour + 5 * minute) (by decide) (by decide) ?_ (by decide)
    (by decide)).1 ⟨2, by decide, by decide⟩
  exact ⟨.inl (by decide), .inl (by decide), trivial⟩

/-- Next to a one-minute interval, a two-hour interval that is not due is put off by a minute. -/
theorem interval_postponed :
    ¬ (Schedule.every (2 * hour)).Fires hour (hour + minute) ∧
      (Schedule.every (2 * hour)).next
          (lastEval [.every minute, .every (2 * hour)] hour (hour + minute)) =
        (Schedule.every (2 * hour)).next hour + minute := by
  decide

end Goobers.Scheduler
