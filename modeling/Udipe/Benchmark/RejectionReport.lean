import Udipe.Benchmark.Rejection

/-!
# The report of the last rejections

Reference: `benchmark/outlier_filter.h`, `benchmark/outlier_filter.c`.

A filter is applied to one builder after the other. The flag of its report is set by a call that rejects
something and never cleared, so that a later call that rejects nothing leaves an empty report rather than
none.
-/

namespace Udipe

variable {W : Type}

/-- A fresh filter has reported nothing. -/
theorem outlierFilterInitialize_report {filter : OutlierFilter W} {pageSize : ℕ}
    {binWeights : ℕ → W} {scoresMemory rejectionsMemory : Allocation}
    (h : outlierFilterInitialize pageSize binWeights scoresMemory rejectionsMemory = some filter) :
    filter.lastRejections.isBuilt = false ∧ filter.lastRejections.Usable := by
  simp only [outlierFilterInitialize, Option.bind_eq_bind, Option.bind_eq_some_iff,
    Option.some.injEq] at h
  obtain ⟨scores, -, rejections, hrejections, rfl⟩ := h
  have hempty := distributionInitialize_isHistogram hrejections
  obtain ⟨hsorted, hcontents, -⟩ := Distribution.isHistogram_iff.mp hempty
  refine ⟨rfl, fun _ => ?_, hempty.room, hempty.capacity⟩
  have hbins := (contentsOf_eq_zero hsorted.positive).mp hcontents
  rw [← rejections.length_bins, hbins, List.length_nil]

variable [LT W] [DecidableLT W] [LE W] [DecidableLE W]

/-- A call of `outlier_filter_apply`, and the weights that it computes. -/
structure FilterCall (W : Type) where
  target : Distribution
  relWeights : ℕ → W
  scoresMemory : ℕ → Allocation
  rejectionsMemory : ℕ → Allocation

/-- The filter, and the builder that the last call has left. -/
structure FilterState (W : Type) where
  filter : OutlierFilter W
  target : Distribution

/-- The machine of one filter. -/
def outlierFilter (b : Build) (scale : WeightScale W) : Machine (FilterState W) (FilterCall W) where
  step s call :=
    (outlierFilterApply b scale call.scoresMemory call.rejectionsMemory call.relWeights s.filter
      call.target).map fun result => ⟨result.1, result.2⟩

/-- The target is a builder of at most as many values as `size_t` counts. -/
def FilterCall.Valid (call : FilterCall W) : Prop :=
  ∃ m, call.target.IsHistogram m ∧ m.card < 2 ^ 64

/-- The values that a call has removed from its target. -/
def FilterCall.removed (call : FilterCall W) (s : FilterState W) : Multiset ℤ :=
  call.target.contents - s.target.contents

/-- What the report of a call should be. -/
def ReportIsFresh (removed : Multiset ℤ) : Option Distribution → Prop
  | none => removed = 0
  | some report => removed ≠ 0 ∧ report.Built ∧ (report.values : Multiset ℤ) = removed

/-- The weight of some bin does not exceed the threshold. -/
def FilterCall.RejectsSome (b : Build) (scale : WeightScale W) (filter : OutlierFilter W)
    (call : FilterCall W) : Prop :=
  ∃ scored threshold,
    scoreTarget b scale call.scoresMemory call.relWeights filter call.target
        = some (scored, threshold) ∧
      ∃ bin < call.target.numBins, ¬ threshold < call.relWeights bin

variable {b : Build} {scale : WeightScale W} {filter filter' scored : OutlierFilter W}
  {target target' : Distribution} {m : Multiset ℤ} {threshold : W} {relWeights : ℕ → W}
  {memory memory' : ℕ → Allocation}

/-- Scoring leaves the weights and the report as they are. -/
theorem scoreTarget_filter
    (h : scoreTarget b scale memory relWeights filter target = some (scored, threshold)) :
    scored.binWeights = relWeights ∧ target.numBins ≤ scored.binCapacity ∧
      scored.lastRejections = filter.lastRejections := by
  simp only [scoreTarget, computeScores, Option.bind_eq_bind, Option.bind_eq_some_iff,
    Option.some.injEq, Prod.mk.injEq] at h
  obtain ⟨scored', hscores, threshold', -, rfl, -⟩ := h
  rw [Option.ite_none_right_eq_some] at hscores
  obtain ⟨-, hscores⟩ := hscores
  simp only [Option.bind_eq_some_iff, Option.some.injEq] at hscores
  obtain ⟨builder, -, distribution, -, rfl⟩ := hscores
  exact ⟨rfl, le_max_right .., rfl⟩

/-- A call scores its target, and rejects the bins whose weight is at most the threshold. -/
theorem outlierFilterApply_spec (h : target.IsHistogram m) (husable : filter.lastRejections.Usable)
    (hstep : outlierFilterApply b scale memory memory' relWeights filter target
      = some (filter', target')) :
    ∃ scored threshold, scoreTarget b scale memory relWeights filter target
        = some (scored, threshold) ∧
      target'.IsHistogram (contentsOf (keptBins relWeights threshold target)) ∧
      ReportOf scored filter' (rejectedBins relWeights threshold target) ∧
      scored.lastRejections = filter.lastRejections := by
  rw [outlierFilterApply, Option.ite_none_left_eq_some] at hstep
  obtain ⟨-, hstep⟩ := hstep
  simp only [Option.bind_eq_bind, Option.bind_eq_some_iff, Prod.exists] at hstep
  obtain ⟨scored, threshold, hscore, hreject⟩ := hstep
  obtain ⟨rfl, hcapacity, hreport⟩ := scoreTarget_filter hscore
  obtain ⟨filter'', target'', hreject', -, hkept, hreported⟩ :=
    rejectBins_spec (b := b) threshold h hcapacity (hreport ▸ husable) memory'
  obtain ⟨rfl, rfl⟩ := Prod.mk.inj (Option.some.inj (hreject.symm.trans hreject'))
  exact ⟨scored, threshold, hscore, hkept, hreported, hreport⟩

/-- A call leaves the filter usable, its report is fresh unless nothing was rejected and the flag was set,
and it sets the flag if it rejects something. -/
theorem FilterCall.report {call : FilterCall W} {s s' : FilterState W}
    (husable : s.filter.lastRejections.Usable) (hcall : call.Valid)
    (hstep : (outlierFilter b scale).step s call = some s') :
    s'.filter.lastRejections.Usable ∧
      (ReportIsFresh (call.removed s') (outlierFilterLastRejections s'.filter) ↔
        s.filter.lastRejections.isBuilt = false ∨ call.RejectsSome b scale s.filter) ∧
      (s'.filter.lastRejections.isBuilt = true ↔
        s.filter.lastRejections.isBuilt = true ∨ call.RejectsSome b scale s.filter) := by
  obtain ⟨m, hhist, hfits⟩ := hcall
  simp only [outlierFilter, Option.map_eq_some_iff, Prod.exists] at hstep
  obtain ⟨filter', target', happly, rfl⟩ := hstep
  obtain ⟨scored, threshold, hscore, hkept, hreported, hsame⟩ :=
    outlierFilterApply_spec hhist husable happly
  refine ⟨hreported.usable, ?_⟩
  have hremoved : call.removed ⟨filter', target'⟩ =
      contentsOf (rejectedBins call.relWeights threshold call.target) := contents_sub_kept hkept
  have hsome : call.RejectsSome b scale s.filter ↔
      rejectedBins call.relWeights threshold call.target ≠ [] := by
    rw [ne_eq, rejected_eq_nil, not_not]
    constructor
    · rintro ⟨scored', threshold', hscore', hbin⟩
      obtain ⟨-, rfl⟩ := Prod.mk.inj (Option.some.inj (hscore.symm.trans hscore'))
      exact hbin
    · intro hbin
      exact ⟨scored, threshold, hscore, hbin⟩
  obtain ⟨-, -, builder, hbins, hbuilder, hreport⟩ := hreported
  rw [hremoved, hsome, outlierFilterLastRejections]
  split at hreport
  · rename_i hnone
    -- nothing is rejected: the flag is as it was
    rw [hreport, hsame, hnone]
    cases s.filter.lastRejections.isBuilt with
    | false => simp [ReportIsFresh]
    | true => simp [ReportIsFresh]
  · rename_i hrejected
    obtain ⟨hbuilt, hbuild⟩ := hreport
    have hcard : (contentsOf (rejectedBins call.relWeights threshold call.target)).card < 2 ^ 64 := by
      refine lt_of_le_of_lt (Multiset.card_le_card ?_) hfits
      rw [← hremoved, ← hhist.contents]
      exact tsub_le_self
    have hzero := (rejected_eq_zero call.relWeights threshold hhist).not
    obtain ⟨hinvariant, hvalues⟩ := hbuilder.of_build hcard hbuild
    rw [if_pos hbuilt]
    exact ⟨iff_of_true ⟨hzero.mpr hrejected, hinvariant, hvalues⟩ (.inr hrejected),
      iff_of_true hbuilt (.inr hrejected)⟩

/-- Over every sequence of calls on the filter: the report of a call is fresh exactly when no call before
it has rejected anything or the call itself rejects something. -/
theorem rejectionReport_fresh_iff (b : Build) (scale : WeightScale W) {pageSize : ℕ}
    {binWeights : ℕ → W} {scoresMemory rejectionsMemory : Allocation} (target : Distribution)
    {calls : List (FilterCall W)}
    (hinit : outlierFilterInitialize pageSize binWeights scoresMemory rejectionsMemory = some filter)
    (hcalls : ∀ call ∈ calls, call.Valid) :
    filter.lastRejections.isBuilt = false ∧
      (outlierFilter b scale).Along
        (fun s call s' =>
          (ReportIsFresh (call.removed s') (outlierFilterLastRejections s'.filter) ↔
            s.filter.lastRejections.isBuilt = false ∨ call.RejectsSome b scale s.filter) ∧
          (s'.filter.lastRejections.isBuilt = true ↔
            s.filter.lastRejections.isBuilt = true ∨ call.RejectsSome b scale s.filter))
        ⟨filter, target⟩ calls := by
  obtain ⟨hbuilt, husable⟩ := outlierFilterInitialize_report hinit
  refine ⟨hbuilt, Machine.along_of_invariant (C := fun _ call _ => call.Valid)
    (I := fun s => s.filter.lastRejections.Usable) ?_ ?_ husable
    (Machine.along_of_forall_mem hcalls)⟩
  · exact fun s call s' h hcall hstep => (FilterCall.report h hcall hstep).1
  · exact fun s call s' h hcall hstep => (FilterCall.report h hcall hstep).2

/-- Weights in thousandths, with a score that is linear in the weight. -/
def permilleScale : WeightScale ℤ where
  zero := 0
  one := 1000
  outlierThreshold := 20
  relWeightToScore := fun relWeight => relWeight - 1000
  scoreToRelWeight := fun score => score + 1000

/-- Thirty-nine values and one far from them. -/
def fortyValues : Distribution where
  allocation := { sortedValues := fun i => [10, 99].getD i 0, counts := fun i => [39, 1].getD i 0 }
  numBins := 2
  capacity := 4

/-- The value far from the others has weight `relWeight`. -/
def callOnForty (relWeight : ℤ) : FilterCall ℤ where
  target := fortyValues
  relWeights := fun i => [1000, relWeight].getD i 0
  scoresMemory := fun _ => .zero
  rejectionsMemory := fun _ => .zero

/-- A filter that has been used for nothing. -/
def freshFilter : OutlierFilter ℤ where
  binWeights := fun _ => 0
  binCapacity := 512
  lastScores := ⟨{ allocation := .zero, numBins := 0, capacity := 256 }, false⟩
  lastRejections := ⟨{ allocation := .zero, numBins := 0, capacity := 256 }, false⟩

theorem fortyValues_isHistogram : fortyValues.IsHistogram (contentsOf fortyValues.bins) :=
  Distribution.isHistogram_iff.mpr ⟨⟨by decide, by decide⟩, rfl, by decide, by decide⟩

theorem callOnForty_valid (relWeight : ℤ) : (callOnForty relWeight).Valid :=
  ⟨_, fortyValues_isHistogram, by decide⟩

/-- The second call rejects nothing, and an empty report is returned. -/
theorem staleReport :
    outlierFilterInitialize 4096 (fun _ => (0 : ℤ)) .zero .zero = some freshFilter ∧
    (∀ call ∈ [callOnForty 10, callOnForty 1000], call.Valid) ∧
    ¬ (outlierFilter ⟨true⟩ permilleScale).Along
        (fun _ call s' =>
          ReportIsFresh (call.removed s') (outlierFilterLastRejections s'.filter))
        ⟨freshFilter, fortyValues⟩ [callOnForty 10, callOnForty 1000] := by
  refine ⟨rfl, by simp [callOnForty_valid], fun hfresh => ?_⟩
  obtain ⟨s', hrun, hreport⟩ := Option.map_eq_some_iff.mp
    (show ((outlierFilter ⟨true⟩ permilleScale).run ⟨freshFilter, fortyValues⟩
        [callOnForty 10, callOnForty 1000]).map
          (fun s => (outlierFilterLastRejections s.filter).map Distribution.numBins) = some (some 0)
      by decide +kernel)
  obtain ⟨s, hfirst, hrest⟩ := (Machine.run_cons_eq_some _).mp hrun
  obtain ⟨t, hsecond, hend⟩ := (Machine.run_cons_eq_some _).mp hrest
  obtain rfl := Option.some.inj hend
  have hlast : ReportIsFresh ((callOnForty 1000).removed t) (outlierFilterLastRejections t.filter) :=
    ((hfresh s hfirst).2 t hsecond).1
  obtain ⟨report, hsome, hempty⟩ := Option.map_eq_some_iff.mp hreport
  rw [hsome] at hlast
  exact absurd hlast.2.1.nonempty (by omega)

/-- The two calls are made, and the first report is the value that is far from the others. -/
theorem rejectionReport_fresh_iff_forty :
    freshFilter.lastRejections.isBuilt = false ∧
      (outlierFilter ⟨true⟩ permilleScale).Along
        (fun s call s' =>
          (ReportIsFresh (call.removed s') (outlierFilterLastRejections s'.filter) ↔
            s.filter.lastRejections.isBuilt = false ∨ call.RejectsSome ⟨true⟩ permilleScale s.filter) ∧
          (s'.filter.lastRejections.isBuilt = true ↔
            s.filter.lastRejections.isBuilt = true ∨ call.RejectsSome ⟨true⟩ permilleScale s.filter))
        ⟨freshFilter, fortyValues⟩ [callOnForty 10, callOnForty 1000] :=
  rejectionReport_fresh_iff ⟨true⟩ permilleScale fortyValues
    (show outlierFilterInitialize 4096 (fun _ => 0) .zero .zero = some freshFilter from rfl)
    (by simp [callOnForty_valid])

end Udipe
