import Mathlib.Data.List.Induction
import Mathlib.Data.List.Sort
import CommonFabric.JsMap
import CommonFabric.JsSet
import CommonFabric.JsValue

/-!
# Commit rates and storms

A memory server counts the commits of each space in buckets of a second, over ten minutes, and
judges a space to be in a storm when its commits of the last minute have stood at a threshold for
long enough. Times are whole milliseconds.
-/

namespace CommitRates

def TEN_MINUTES_MS : ℤ := 600000

def MINUTE_MS : ℤ := 60000

def BUCKET_MS : ℤ := 1000

/-- Thresholds read from the environment are positive. -/
structure CommitStormThresholds where
  commitsPerMinute : ℚ
  sustainedSeconds : ℚ
  commitsPositive : 0 < commitsPerMinute

structure Options where
  storm : CommitStormThresholds
  maxSpaces : ℕ
  maxWritersPerSpace : ℕ
  topSpaces : ℕ
  topWriters : ℕ

structure CommitWindowCounts where
  accepted : ℕ
  rejected : ℕ
  operations : ℕ
  deriving DecidableEq

def emptyCounts : CommitWindowCounts := ⟨0, 0, 0⟩

def addCounts (into counts : CommitWindowCounts) : CommitWindowCounts :=
  ⟨into.accepted + counts.accepted, into.rejected + counts.rejected,
    into.operations + counts.operations⟩

def totalCommits (counts : CommitWindowCounts) : ℕ := counts.accepted + counts.rejected

/-- The counts of one second, by its index since the epoch. -/
structure Bucket where
  index : ℤ
  counts : CommitWindowCounts

/-- Buckets oldest first, one for each second that saw a commit. -/
abbrev CommitSeries := List Bucket

/-- The index of the oldest bucket inside a window. -/
def oldestIndex (now windowMs : ℤ) : ℤ := (now - windowMs) / BUCKET_MS + 1

def CommitSeries.prune (series : CommitSeries) (now : ℤ) : CommitSeries :=
  series.dropWhile fun bucket => bucket.index < oldestIndex now TEN_MINUTES_MS

def countOne (accepted : Bool) (operations : ℕ) : CommitWindowCounts :=
  ⟨if accepted then 1 else 0, if accepted then 0 else 1, operations⟩

/-- A commit goes into the newest bucket, unless that is of an earlier second. -/
def CommitSeries.add (series : CommitSeries) (now : ℤ) (accepted : Bool) (operations : ℕ) :
    CommitSeries :=
  let buckets := series.prune now
  let index := now / BUCKET_MS
  match buckets.getLast? with
  | none => [⟨index, countOne accepted operations⟩]
  | some newest =>
    if index ≤ newest.index then
      buckets.dropLast ++ [⟨newest.index, addCounts newest.counts (countOne accepted operations)⟩]
    else buckets ++ [⟨index, countOne accepted operations⟩]

/-- The buckets of a window, from the newest back to the first that is too old. -/
def CommitSeries.counts (series : CommitSeries) (now windowMs : ℤ) : CommitWindowCounts :=
  (series.reverse.takeWhile fun bucket => ¬bucket.index < oldestIndex now windowMs).foldl
    (fun total bucket => addCounts total bucket.counts) emptyCounts

structure Writer where
  lastRecorded : ℕ
  session : JsString
  principal : Option JsString
  series : CommitSeries

structure SpaceWindow where
  lastRecorded : ℕ
  series : CommitSeries
  writers : JsMap JsString Writer
  /-- When the minute last rose to the threshold, while it has not stood under it since. -/
  overSince : Option ℤ

structure State where
  spaces : JsMap JsString SpaceWindow
  sequence : ℕ

def start : State := ⟨JsMap.empty, 0⟩

structure RecordedCommit where
  space : JsString
  session : JsString
  principal : Option JsString
  accepted : Bool
  operations : ℕ

/-- The entry that committed longest ago leaves. -/
def evictQuietest {ν : Type} (lastRecorded : ν → ℕ) (m : JsMap JsString ν) : JsMap JsString ν :=
  match m.entries with
  | [] => m
  | first :: rest =>
    let quietest := rest.foldl
      (fun best e => if lastRecorded e.2 < lastRecorded best.2 then e else best) first
    m.delete quietest.1

section Tracker

variable (options : Options)

/-- `#space`: the window of a space, which is opened where there is none. -/
def spaceWindow (st : State) (key : JsString) : JsMap JsString SpaceWindow × SpaceWindow :=
  match st.spaces.get key with
  | some space => (st.spaces, space)
  | none =>
    let spaces := if options.maxSpaces ≤ st.spaces.entries.length then
        evictQuietest SpaceWindow.lastRecorded st.spaces
      else st.spaces
    (spaces, ⟨st.sequence, [], JsMap.empty, none⟩)

def writerKey (commit : RecordedCommit) : JsString :=
  JsString.concat [commit.session, ⟨[0]⟩, commit.principal.getD ""]

/-- `#writer`. -/
def writerOf (writers : JsMap JsString Writer) (commit : RecordedCommit) (sequence : ℕ) :
    JsMap JsString Writer × Writer :=
  match writers.get (writerKey commit) with
  | some writer => (writers, writer)
  | none =>
    let writers := if options.maxWritersPerSpace ≤ writers.entries.length then
        evictQuietest Writer.lastRecorded writers
      else writers
    (writers, ⟨sequence, commit.session, commit.principal, []⟩)

def minuteCommits (series : CommitSeries) (now : ℤ) : ℕ := totalCommits (series.counts now MINUTE_MS)

/-- `#endBrokenRun`: a run ends where the minute stood under the threshold just before now. -/
def endBrokenRun (space : SpaceWindow) (now : ℤ) : SpaceWindow :=
  if (minuteCommits space.series (now - 1) : ℚ) < options.storm.commitsPerMinute then
    { space with overSince := none }
  else space

/-- `#startRun`. -/
def startRun (space : SpaceWindow) (now : ℤ) : SpaceWindow :=
  if options.storm.commitsPerMinute ≤ (minuteCommits space.series now : ℚ) then
    { space with overSince := some (space.overSince.getD now) }
  else space

/-- `#inStorm`. -/
def inStorm (space : SpaceWindow) (now : ℤ) : Bool :=
  match space.overSince with
  | none => false
  | some since => options.storm.sustainedSeconds * 1000 ≤ ((now - since : ℤ) : ℚ)

/-- The space's window once a commit of it is counted. -/
def recordSpace (space : SpaceWindow) (now : ℤ) (commit : RecordedCommit) (sequence : ℕ) :
    SpaceWindow :=
  let space := endBrokenRun options space now
  let series := space.series.add now commit.accepted commit.operations
  let found := writerOf options space.writers commit sequence
  let writer : Writer := { found.2 with
    lastRecorded := sequence
    series := found.2.series.add now commit.accepted commit.operations }
  startRun options { space with
    lastRecorded := sequence
    series := series
    writers := found.1.set (writerKey commit) writer } now

def record (st : State) (now : ℤ) (commit : RecordedCommit) : State × Bool :=
  let found := spaceWindow options st commit.space
  let space := recordSpace options found.2 now commit (st.sequence + 1)
  (⟨found.1.set commit.space space, st.sequence + 1⟩, inStorm options space now)

structure Windows where
  minute : CommitWindowCounts
  tenMinutes : CommitWindowCounts
  deriving DecidableEq

def windowsOf (series : CommitSeries) (now : ℤ) : Windows :=
  ⟨series.counts now MINUTE_MS, series.counts now TEN_MINUTES_MS⟩

structure CommitWriterRates where
  session : JsString
  principal : Option JsString
  windows : Windows
  deriving DecidableEq

structure CommitSpaceRates where
  space : JsString
  windows : Windows
  /-- Since when the space is in a storm, where it is. -/
  storm : Option ℤ
  activeWriters : ℕ
  writers : List CommitWriterRates
  deriving DecidableEq

structure CommitRatesReport where
  storm : CommitStormThresholds
  activeSpaces : ℕ
  storms : ℕ
  spaces : List CommitSpaceRates

/-- The top entries by each window, by the minute's commits and then the ten minutes'. -/
def topByEachWindow {α : Type} [DecidableEq α] (windows : α → Windows) (entries : List α) (n : ℕ) :
    List α :=
  let minute := fun a => totalCommits (windows a).minute
  let tenMinutes := fun a => totalCommits (windows a).tenMinutes
  let byMinute := (entries.insertionSort fun a b => minute b ≤ minute a).take n
  let byTenMinutes := (entries.insertionSort fun a b => tenMinutes b ≤ tenMinutes a).take n
  (JsSet.empty.addAll (byMinute ++ byTenMinutes)).items.insertionSort fun a b =>
    minute b < minute a ∨ minute a = minute b ∧ tenMinutes b ≤ tenMinutes a

/-- `active`: whether a commit is left inside the long window. -/
def CommitSeries.active (series : CommitSeries) (now : ℤ) : Bool := !(series.prune now).isEmpty

/-- A writer as a report finds it, without the buckets that left the long window. -/
def reportWriters (writers : List (JsString × Writer)) (now : ℤ) : List (JsString × Writer) :=
  (writers.filter fun e => e.2.series.active now).map fun e =>
    (e.1, { e.2 with series := e.2.series.prune now })

/-- A space as a report leaves it. -/
def reportSpace (space : SpaceWindow) (now : ℤ) : SpaceWindow :=
  endBrokenRun options { space with
    series := space.series.prune now
    writers := ⟨reportWriters space.writers.entries now, by
      rw [reportWriters, List.map_map]
      exact (space.writers.nodup.sublist (List.Sublist.map _ List.filter_sublist))⟩ } now

def spaceRates (key : JsString) (space : SpaceWindow) (now : ℤ) : CommitSpaceRates :=
  let writers := space.writers.values.map fun writer =>
    (⟨writer.session, writer.principal, windowsOf writer.series now⟩ : CommitWriterRates)
  { space := key
    windows := windowsOf space.series now
    storm := if inStorm options space now then space.overSince else none
    activeWriters := writers.length
    writers := topByEachWindow CommitWriterRates.windows writers options.topWriters }

/-- The spaces a report retains. -/
def reportSpaces (st : State) (now : ℤ) : JsMap JsString SpaceWindow :=
  ⟨(st.spaces.entries.filter fun e => e.2.series.active now).map fun e =>
      (e.1, reportSpace options e.2 now), by
    rw [List.map_map]
    exact st.spaces.nodup.sublist (List.Sublist.map _ List.filter_sublist)⟩

/-- Each retained space's rates, of which a report lists the top ones. -/
def reportRows (st : State) (now : ℤ) : List CommitSpaceRates :=
  (reportSpaces options st now).entries.map fun e => spaceRates options e.1 e.2 now

def report (st : State) (now : ℤ) : State × CommitRatesReport :=
  let rows := reportRows options st now
  ({ st with spaces := reportSpaces options st now },
    { storm := options.storm
      activeSpaces := rows.length
      storms := rows.countP fun row => row.storm.isSome
      spaces := topByEachWindow CommitSpaceRates.windows rows options.topSpaces })

end Tracker

end CommitRates

namespace CommitRates

def seriesTotal (series : CommitSeries) : ℕ := (series.map fun bucket => totalCommits bucket.counts).sum

theorem totalCommits_foldl (series : CommitSeries) (total : CommitWindowCounts) :
    totalCommits (series.foldl (fun total bucket => addCounts total bucket.counts) total) =
      totalCommits total + seriesTotal series := by
  induction series generalizing total with
  | nil => rfl
  | cons bucket series ih =>
    rw [List.foldl_cons, ih]
    simp only [totalCommits, addCounts, seriesTotal, List.map_cons, List.sum_cons]
    omega

theorem totalCommits_countOne (accepted : Bool) (operations : ℕ) :
    totalCommits (countOne accepted operations) = 1 := by
  cases accepted <;> rfl

/-- The buckets of a series, up to a time, hold the commits of the long window. -/
structure Holds (times : List ℤ) (upTo : ℤ) (series : CommitSeries) : Prop where
  sorted : series.Pairwise fun a b => a.index < b.index
  newest : ∀ bucket ∈ series, bucket.index ≤ upTo / BUCKET_MS
  total : ∀ k, oldestIndex upTo TEN_MINUTES_MS ≤ k →
    seriesTotal (series.filter fun bucket => k ≤ bucket.index) =
      times.countP fun t => k ≤ t / BUCKET_MS

section Series

variable {times : List ℤ} {upTo now : ℤ} {series : CommitSeries}

/-- Of buckets newest first, those up to the first that is too old are those that are not. -/
theorem takeWhile_eq_filter {buckets : List Bucket} (k : ℤ)
    (h : buckets.Pairwise fun a b => b.index < a.index) :
    (buckets.takeWhile fun bucket => ¬bucket.index < k) =
      buckets.filter fun bucket => k ≤ bucket.index := by
  induction buckets with
  | nil => rfl
  | cons bucket buckets ih =>
    rw [List.pairwise_cons] at h
    by_cases hk : k ≤ bucket.index
    · rw [List.takeWhile_cons_of_pos (by simpa using hk),
        List.filter_cons_of_pos (by simpa using hk), ih h.2]
    · rw [List.takeWhile_cons_of_neg (by simpa using hk), List.filter_cons_of_neg (by simpa using hk)]
      symm
      rw [List.filter_eq_nil_iff]
      intro other hother
      have := h.1 other hother
      simp only [decide_eq_true_eq]
      omega

theorem Holds.counts (h : Holds times upTo series) {windowMs : ℤ}
    (hwindow : oldestIndex upTo TEN_MINUTES_MS ≤ oldestIndex now windowMs) :
    totalCommits (series.counts now windowMs) =
      times.countP fun t => oldestIndex now windowMs ≤ t / BUCKET_MS := by
  rw [CommitSeries.counts, totalCommits_foldl, takeWhile_eq_filter _ (List.pairwise_reverse.2 h.sorted),
    ← h.total _ hwindow, List.filter_reverse, seriesTotal, seriesTotal, List.map_reverse,
    List.sum_reverse]
  exact Nat.zero_add _

theorem Holds.mono (h : Holds times upTo series) (hle : upTo ≤ now) : Holds times now series where
  sorted := h.sorted
  newest bucket hbucket := by
    have := h.newest bucket hbucket
    simp only [BUCKET_MS] at *
    omega
  total k hk := by
    apply h.total k
    simp only [oldestIndex, TEN_MINUTES_MS, BUCKET_MS] at *
    omega

theorem Holds.prune (h : Holds times now series) : Holds times now (series.prune now) where
  sorted := h.sorted.sublist (List.dropWhile_sublist _)
  newest bucket hbucket := h.newest bucket ((List.dropWhile_sublist _).subset hbucket)
  total k hk := by
    rw [← h.total k hk, CommitSeries.prune]
    congr 1
    have hsplit := List.takeWhile_append_dropWhile
      (p := fun bucket : Bucket => decide (bucket.index < oldestIndex now TEN_MINUTES_MS))
      (l := series)
    conv_rhs => rw [← hsplit, List.filter_append]
    have hdropped : (series.takeWhile fun bucket =>
        decide (bucket.index < oldestIndex now TEN_MINUTES_MS)).filter
          (fun bucket => decide (k ≤ bucket.index)) = [] := by
      rw [List.filter_eq_nil_iff]
      intro bucket hbucket
      have hold := List.all_eq_true.1 List.all_takeWhile bucket hbucket
      simp only [decide_eq_true_eq] at hold ⊢
      omega
    rw [hdropped, List.nil_append]

/-- One more commit adds one to every window that it is in. -/
theorem countP_append_now (k now : ℤ) (times : List ℤ) :
    (times ++ [now]).countP (fun t => k ≤ t / BUCKET_MS) =
      times.countP (fun t => k ≤ t / BUCKET_MS) + if k ≤ now / BUCKET_MS then 1 else 0 := by
  rw [List.countP_append, List.countP_singleton]
  simp

theorem Holds.append (h : Holds times now series) {counts : CommitWindowCounts}
    (hone : totalCommits counts = 1) (hnewer : ∀ bucket ∈ series, bucket.index < now / BUCKET_MS) :
    Holds (times ++ [now]) now (series ++ [⟨now / BUCKET_MS, counts⟩]) where
  sorted := by
    rw [List.pairwise_append]
    refine ⟨h.sorted, List.pairwise_singleton _ _, ?_⟩
    intro a ha b hb
    rw [List.mem_singleton.1 hb]
    exact hnewer a ha
  newest bucket hbucket := by
    rcases List.mem_append.1 hbucket with hbucket | hbucket
    · exact h.newest bucket hbucket
    · rw [List.mem_singleton.1 hbucket]
  total k hk := by
    rw [countP_append_now, ← h.total k hk, List.filter_append]
    by_cases hnow : k ≤ now / BUCKET_MS
    · simp [seriesTotal, hnow, hone]
    · simp [seriesTotal, hnow]

theorem Holds.bump {buckets : List Bucket} {newest : Bucket} {counts : CommitWindowCounts}
    (h : Holds times now (buckets ++ [newest])) (hindex : newest.index = now / BUCKET_MS)
    (hone : totalCommits counts = 1) :
    Holds (times ++ [now]) now (buckets ++ [⟨newest.index, addCounts newest.counts counts⟩]) where
  sorted := by
    have hsorted := h.sorted
    rw [List.pairwise_append] at hsorted ⊢
    refine ⟨hsorted.1, List.pairwise_singleton _ _, ?_⟩
    intro a ha b hb
    rw [List.mem_singleton.1 hb]
    exact hsorted.2.2 a ha newest (List.mem_singleton_self _)
  newest bucket hbucket := by
    rcases List.mem_append.1 hbucket with hbucket | hbucket
    · exact h.newest bucket (List.mem_append_left _ hbucket)
    · rw [List.mem_singleton.1 hbucket]
      exact hindex.le
  total k hk := by
    have htotal := h.total k hk
    have hadd : totalCommits (addCounts newest.counts counts) = totalCommits newest.counts + 1 := by
      rw [← hone]
      simp only [totalCommits, addCounts]
      omega
    rw [countP_append_now, ← htotal, List.filter_append, List.filter_append, ← hindex]
    by_cases hnow : k ≤ newest.index
    · simp [seriesTotal, hnow, hadd, Nat.add_assoc]
    · simp [seriesTotal, hnow]

theorem Holds.add (h : Holds times upTo series) (hle : upTo ≤ now) (accepted : Bool)
    (operations : ℕ) : Holds (times ++ [now]) now (series.add now accepted operations) := by
  have hpruned := (h.mono hle).prune
  rw [CommitSeries.add]
  cases hlast : (series.prune now).getLast? with
  | none =>
    rw [List.getLast?_eq_none_iff] at hlast
    rw [hlast] at hpruned
    have happend := hpruned.append (totalCommits_countOne accepted operations) (by simp)
    exact happend
  | some newest =>
    obtain ⟨buckets, hbuckets⟩ := List.getLast?_eq_some_iff.1 hlast
    rw [hbuckets] at hpruned
    simp only [hbuckets, List.dropLast_concat]
    split
    case isTrue hindex =>
      have hnewest := hpruned.newest newest (by simp)
      exact hpruned.bump (by omega) (totalCommits_countOne accepted operations)
    case isFalse hindex =>
      apply hpruned.append (totalCommits_countOne accepted operations)
      intro bucket hbucket
      rcases List.mem_append.1 hbucket with hbucket | hbucket
      · have := (List.pairwise_append.1 hpruned.sorted).2.2 bucket hbucket newest
          (List.mem_singleton_self _)
        omega
      · rw [List.mem_singleton.1 hbucket]
        omega

end Series

/-- The commits counted at an instant: all that came up to it, in the buckets of the last minute. -/
def minuteCount (times : List ℤ) (x : ℤ) : ℕ :=
  times.countP fun t => t ≤ x ∧ oldestIndex x MINUTE_MS ≤ t / BUCKET_MS

/-- A commit came at an instant, its minute was at the threshold, and it has stood there at every
instant before another. -/
structure Standing (options : Options) (times : List ℤ) (before s : ℤ) : Prop where
  commit : s ∈ times
  reached : options.storm.commitsPerMinute ≤ (minuteCount times s : ℚ)
  stood : ∀ x, s ≤ x → x < before → options.storm.commitsPerMinute ≤ (minuteCount times x : ℚ)

/-- The space is in a storm: a run over the threshold began at least the sustained window ago. -/
def Storm (options : Options) (times : List ℤ) (now : ℤ) : Prop :=
  ∃ s, Standing options times now s ∧
    options.storm.sustainedSeconds * 1000 ≤ ((now - s : ℤ) : ℚ)

/-- What the tracker keeps of the runs of a space: the earliest that still stands. -/
def RunAt (options : Options) (times : List ℤ) (before : ℤ) : Option ℤ → Prop
  | none => ∀ s, ¬Standing options times before s
  | some since => Standing options times before since ∧
      ∀ s, Standing options times before s → since ≤ s

section Runs

variable {options : Options} {times : List ℤ} {last now : ℤ} {series : CommitSeries}

theorem Standing.mono {s : ℤ} (h : Standing options times now s) (hle : last ≤ now) :
    Standing options times last s :=
  ⟨h.commit, h.reached, fun x hs hx => h.stood x hs (by omega)⟩

/-- While no commit comes the count falls. -/
theorem minuteCount_antitone {x y : ℤ} (hlast : ∀ t ∈ times, t ≤ x) (hxy : x ≤ y) :
    minuteCount times y ≤ minuteCount times x := by
  apply List.countP_mono_left
  intro t ht hcounted
  have hfirst := hlast t ht
  have hin := of_decide_eq_true hcounted
  apply decide_eq_true
  simp only [oldestIndex, MINUTE_MS, BUCKET_MS] at hin ⊢
  omega

theorem minuteCount_le_sample (x : ℤ) :
    minuteCount times x ≤ times.countP fun t => oldestIndex x MINUTE_MS ≤ t / BUCKET_MS := by
  apply List.countP_mono_left
  intro t _
  simp only [decide_eq_true_eq]
  exact And.right

theorem minuteCount_of_last {x : ℤ} (hlast : ∀ t ∈ times, t ≤ x) :
    minuteCount times x = times.countP fun t => oldestIndex x MINUTE_MS ≤ t / BUCKET_MS := by
  apply List.countP_congr
  intro t ht
  have := hlast t ht
  simp only [decide_eq_true_eq]
  exact and_iff_right this

theorem minuteCount_append_of_lt {x : ℤ} (hx : x < now) :
    minuteCount (times ++ [now]) x = minuteCount times x := by
  rw [minuteCount, List.countP_append, List.countP_singleton, minuteCount]
  have hnow : ¬now ≤ x := by omega
  simp [hnow]

theorem minuteCount_le_append (x : ℤ) : minuteCount times x ≤ minuteCount (times ++ [now]) x := by
  rw [minuteCount, minuteCount, List.countP_append]
  exact Nat.le_add_right _ _

/-- The least count since the call before is that of the millisecond before this one. -/
theorem RunAt.sample {since : Option ℤ} (h : RunAt options times last since)
    (hlast : ∀ t ∈ times, t ≤ last) (hle : last ≤ now) :
    RunAt options times now
      (if ((times.countP fun t => oldestIndex (now - 1) MINUTE_MS ≤ t / BUCKET_MS : ℕ) : ℚ) <
        options.storm.commitsPerMinute then none else since) := by
  split
  case isTrue hunder =>
    intro s hs
    have hslast := hlast s hs.commit
    -- at the instant before now, or at the commit itself where that is now
    by_cases hnow : s < now
    · have hstood := hs.stood (now - 1) (by omega) (by omega)
      have hsample : (minuteCount times (now - 1) : ℚ) ≤ (times.countP fun t =>
          oldestIndex (now - 1) MINUTE_MS ≤ t / BUCKET_MS : ℕ) := by
        exact_mod_cast minuteCount_le_sample (now - 1)
      exact absurd (hstood.trans hsample) (not_le.2 hunder)
    · have hreached := hs.reached
      have hsample : minuteCount times s ≤ times.countP fun t =>
          oldestIndex (now - 1) MINUTE_MS ≤ t / BUCKET_MS := by
        apply List.countP_mono_left
        intro t _ hcounted
        have hin := of_decide_eq_true hcounted
        apply decide_eq_true
        simp only [oldestIndex, MINUTE_MS, BUCKET_MS] at hin ⊢
        omega
      have hsample' : (minuteCount times s : ℚ) ≤ (times.countP fun t =>
          oldestIndex (now - 1) MINUTE_MS ≤ t / BUCKET_MS : ℕ) := by exact_mod_cast hsample
      exact absurd (hreached.trans hsample') (not_le.2 hunder)
  case isFalse hover =>
    rw [not_lt] at hover
    cases since with
    | none =>
      intro s hs
      exact h s (hs.mono hle)
    | some since =>
      refine ⟨⟨h.1.commit, h.1.reached, ?_⟩, fun s hs => h.2 s (hs.mono hle)⟩
      intro x hs hx
      by_cases hxlast : x < last
      · exact h.1.stood x hs hxlast
      · have hall : ∀ t ∈ times, t ≤ x := fun t ht => (hlast t ht).trans (by omega)
        have hfall : minuteCount times (now - 1) ≤ minuteCount times x :=
          minuteCount_antitone hall (by omega)
        rw [← minuteCount_of_last fun t ht => (hall t ht).trans (by omega)] at hover
        have hfall' : (minuteCount times (now - 1) : ℚ) ≤ (minuteCount times x : ℚ) := by
          exact_mod_cast hfall
        exact hover.trans hfall'

/-- One more commit keeps a run, and begins one where the minute is at the threshold with it. -/
theorem RunAt.record {since : Option ℤ} (h : RunAt options times now since)
    (hlast : ∀ t ∈ times, t ≤ now) :
    RunAt options (times ++ [now]) now
      (if options.storm.commitsPerMinute ≤ (((times ++ [now]).countP fun t =>
        oldestIndex now MINUTE_MS ≤ t / BUCKET_MS : ℕ) : ℚ) then some (since.getD now) else since) := by
  have hlast' : ∀ t ∈ times ++ [now], t ≤ now := by
    intro t ht
    rcases List.mem_append.1 ht with ht | ht
    · exact hlast t ht
    · rw [List.mem_singleton.1 ht]
  have hearlier : ∀ s, s < now → Standing options (times ++ [now]) now s →
      Standing options times now s := by
    intro s hs hstanding
    constructor
    case commit =>
      rcases List.mem_append.1 hstanding.commit with hmem | hmem
      · exact hmem
      · exact absurd (List.mem_singleton.1 hmem) (by omega)
    case reached =>
      have hreached := hstanding.reached
      rw [minuteCount_append_of_lt hs] at hreached
      exact hreached
    case stood =>
      intro x hsx hx
      have hstood := hstanding.stood x hsx hx
      rw [minuteCount_append_of_lt hx] at hstood
      exact hstood
  rw [← minuteCount_of_last hlast']
  cases since with
  | some since =>
    have hkept : RunAt options (times ++ [now]) now (some since) := by
      constructor
      · constructor
        case commit => exact List.mem_append_left _ h.1.commit
        case reached =>
          have hmore : (minuteCount times since : ℚ) ≤ (minuteCount (times ++ [now]) since : ℚ) := by
            exact_mod_cast minuteCount_le_append since
          exact h.1.reached.trans hmore
        case stood =>
          intro x hsx hx
          rw [minuteCount_append_of_lt hx]
          exact h.1.stood x hsx hx
      · intro s hs
        by_cases hnow : s < now
        · exact h.2 s (hearlier s hnow hs)
        · have := hlast since h.1.commit
          omega
    split
    · exact hkept
    · exact hkept
  | none =>
    split
    case isTrue hreached =>
      constructor
      · constructor
        case commit => exact List.mem_append_right _ (List.mem_singleton_self _)
        case reached => exact hreached
        case stood =>
          intro x hsx hx
          simp only [Option.getD_none] at hsx
          omega
      · intro s hs
        by_contra hlt
        exact h s (hearlier s (not_le.1 hlt) hs)
    case isFalse hunder =>
      intro s hs
      by_cases hnow : s < now
      · exact h s (hearlier s hnow hs)
      · have hs' : s = now := by
          have := hlast' s hs.commit
          omega
        exact hunder (hs' ▸ hs.reached)

/-- The run that the tracker keeps decides. -/
theorem RunAt.storm_iff {space : SpaceWindow} (h : RunAt options times now space.overSince) :
    inStorm options space now = true ↔ Storm options times now := by
  rw [inStorm]
  cases hsince : space.overSince with
  | none =>
    rw [hsince] at h
    constructor
    · intro hfalse
      cases hfalse
    · rintro ⟨s, hs, -⟩
      exact absurd hs (h s)
  | some since =>
    rw [hsince] at h
    simp only [decide_eq_true_eq]
    constructor
    · intro hsustained
      exact ⟨since, h.1, hsustained⟩
    · rintro ⟨s, hs, hsustained⟩
      have hle : now - s ≤ now - since := by
        have := h.2 s hs
        omega
      have hle' : ((now - s : ℤ) : ℚ) ≤ ((now - since : ℤ) : ℚ) := by exact_mod_cast hle
      exact hsustained.trans hle'

end Runs

inductive Op where
  | record (commit : RecordedCommit)
  | report

structure Call where
  now : ℤ
  op : Op

def apply (options : Options) (st : State) (call : Call) : State :=
  match call.op with
  | .record commit => (record options st call.now commit).1
  | .report => (report options st call.now).1

def run (options : Options) (calls : List Call) : State := calls.foldl (apply options) start

theorem run_concat (options : Options) (calls : List Call) (call : Call) :
    run options (calls ++ [call]) = apply options (run options calls) call := by
  rw [run, List.foldl_append, run]
  rfl

/-- When a space was committed to. -/
def commitTimes (calls : List Call) (space : JsString) : List ℤ :=
  calls.filterMap fun call =>
    match call.op with
    | .record commit => if commit.space = space then some call.now else none
    | .report => none

theorem commitTimes_concat (calls : List Call) (call : Call) (space : JsString) :
    commitTimes (calls ++ [call]) space = commitTimes calls space ++ commitTimes [call] space :=
  List.filterMap_append

/-- The clock does not go back. -/
def Ordered (calls : List Call) : Prop := (calls.map (·.now)).Pairwise (· ≤ ·)

/-- No space is evicted at the cap: a space that is opened finds room. -/
def Roomy (options : Options) (calls : List Call) : Prop :=
  ∀ before now commit after, calls = before ++ ⟨now, .record commit⟩ :: after →
    (run options before).spaces.get commit.space = none →
    (run options before).spaces.entries.length < options.maxSpaces

theorem Roomy.init {options : Options} {calls : List Call} {call : Call}
    (h : Roomy options (calls ++ [call])) : Roomy options calls := by
  intro before now commit after heq
  apply h before now commit (after ++ [call])
  rw [heq, List.append_assoc]
  rfl

/-- A space's window holds its commits and its runs, as of its last call. -/
structure Tracked (options : Options) (times : List ℤ) (upTo : ℤ) (space : Option SpaceWindow) :
    Prop where
  series : Holds times upTo ((space.map (·.series)).getD [])
  run : ∃ last, last ≤ upTo ∧ (∀ t ∈ times, t ≤ last) ∧
    RunAt options times last (space.bind (·.overSince))

section Tracked

variable {options : Options} {times : List ℤ} {upTo now : ℤ}

theorem Tracked.mono {space : Option SpaceWindow} (h : Tracked options times upTo space)
    (hle : upTo ≤ now) : Tracked options times now space where
  series := h.series.mono hle
  run := by
    obtain ⟨last, hlast, htimes, hrun⟩ := h.run
    exact ⟨last, hlast.trans hle, htimes, hrun⟩

theorem Holds.minuteCommits {series : CommitSeries} (h : Holds times upTo series) {x : ℤ}
    (hx : upTo - 1 ≤ x) :
    minuteCommits series x = times.countP fun t => oldestIndex x MINUTE_MS ≤ t / BUCKET_MS := by
  apply h.counts
  simp only [oldestIndex, MINUTE_MS, TEN_MINUTES_MS, BUCKET_MS]
  omega

/-- A call samples the run of a space before anything else. -/
theorem Tracked.sample {space : SpaceWindow} (h : Tracked options times upTo (some space))
    (hle : upTo ≤ now) :
    (endBrokenRun options space now).series = space.series ∧ (∀ t ∈ times, t ≤ now) ∧
      RunAt options times now (endBrokenRun options space now).overSince := by
  obtain ⟨last, hlast, htimes, hrun⟩ := h.run
  have hseries : Holds times upTo space.series := h.series
  have hsample := RunAt.sample hrun htimes (hlast.trans hle)
  rw [← hseries.minuteCommits (by omega)] at hsample
  refine ⟨?_, fun t ht => (htimes t ht).trans (hlast.trans hle), ?_⟩
  · rw [endBrokenRun]
    split <;> rfl
  · rw [endBrokenRun]
    split
    case isTrue hunder =>
      rw [if_pos hunder] at hsample
      exact hsample
    case isFalse hover =>
      rw [if_neg hover] at hsample
      exact hsample

/-- What a record makes of the window of its space. -/
theorem Tracked.recordSpace {space : SpaceWindow} (h : Tracked options times upTo (some space))
    (hle : upTo ≤ now) (commit : RecordedCommit) (sequence : ℕ) :
    Holds (times ++ [now]) now (recordSpace options space now commit sequence).series ∧
      RunAt options (times ++ [now]) now
        (recordSpace options space now commit sequence).overSince := by
  obtain ⟨hkept, htimes, hrun⟩ := h.sample hle
  have hseries : Holds (times ++ [now]) now
      ((endBrokenRun options space now).series.add now commit.accepted commit.operations) := by
    rw [hkept]
    exact h.series.add hle _ _
  have hrecord := hrun.record htimes
  rw [← hseries.minuteCommits (by omega)] at hrecord
  rw [CommitRates.recordSpace, startRun]
  split
  case isTrue hreached =>
    rw [if_pos hreached] at hrecord
    exact ⟨hseries, hrecord⟩
  case isFalse hunder =>
    rw [if_neg hunder] at hrecord
    exact ⟨hseries, hrecord⟩

/-- A space with nothing left in the long window has no run. -/
theorem Tracked.inactive {space : SpaceWindow} (h : Tracked options times upTo (some space))
    (hle : upTo ≤ now) (hactive : space.series.active now = false) :
    Tracked options times now none := by
  have hseries : Holds times now (space.series.prune now) := (h.series.mono hle).prune
  have hnil : space.series.prune now = [] := by simpa [CommitSeries.active] using hactive
  rw [hnil] at hseries
  obtain ⟨last, hlast, htimes, -⟩ := h.run
  refine ⟨hseries, now, le_refl _, fun t ht => (htimes t ht).trans (hlast.trans hle), ?_⟩
  intro s hs
  have hnone := hseries.total _ (le_refl _)
  have hold : ¬oldestIndex now TEN_MINUTES_MS ≤ s / BUCKET_MS := by
    intro hin
    have hpos : 0 < times.countP fun t => oldestIndex now TEN_MINUTES_MS ≤ t / BUCKET_MS :=
      List.countP_pos_iff.2 ⟨s, hs.commit, decide_eq_true hin⟩
    rw [← hnone] at hpos
    exact absurd hpos (lt_irrefl 0)
  simp only [oldestIndex, TEN_MINUTES_MS, BUCKET_MS] at hold
  -- its commits have left the minute too, so the count stood at zero just before now
  have hstood := hs.stood (now - 1) (by omega) (by omega)
  have hsample : minuteCount times (now - 1) = 0 := by
    apply Nat.le_zero.1
    apply (minuteCount_le_sample (now - 1)).trans
    rw [← hseries.minuteCommits (le_refl _)]
    exact Nat.zero_le 0
  rw [hsample] at hstood
  exact absurd hstood (not_le.2 (by simpa using options.storm.commitsPositive))

theorem Tracked.reportSpace {space : SpaceWindow} (h : Tracked options times upTo (some space))
    (hle : upTo ≤ now) :
    Tracked options times now (some (reportSpace options space now)) ∧
      RunAt options times now (reportSpace options space now).overSince := by
  have hpruned : Tracked options times now (some { space with
      series := space.series.prune now
      writers := ⟨reportWriters space.writers.entries now, by
        rw [reportWriters, List.map_map]
        exact (space.writers.nodup.sublist (List.Sublist.map _ List.filter_sublist))⟩ }) :=
    ⟨(h.series.mono hle).prune, (h.mono hle).run⟩
  obtain ⟨hkept, htimes, hrun⟩ := hpruned.sample (le_refl now)
  rw [CommitRates.reportSpace]
  refine ⟨⟨?_, now, le_refl _, htimes, hrun⟩, hrun⟩
  have hseries := hpruned.series
  rw [Option.map_some, Option.getD_some] at hseries ⊢
  rw [hkept]
  exact hseries

end Tracked

section State

variable {options : Options} {st : State} {now : ℤ} {key : JsString}

theorem get_reportSpaces : (reportSpaces options st now).get key =
    match st.spaces.get key with
    | none => none
    | some space =>
      if space.series.active now then some (reportSpace options space now) else none := by
  cases hget : st.spaces.get key with
  | none =>
    cases hreported : (reportSpaces options st now).get key with
    | none => rfl
    | some space =>
      obtain ⟨e, he, heq⟩ := List.mem_map.1 (JsMap.mem_of_get hreported)
      have hkey : st.spaces.get e.1 = some e.2 := JsMap.get_of_mem (List.mem_filter.1 he).1
      cases heq
      rw [hget] at hkey
      cases hkey
  | some space =>
    have hmem := JsMap.mem_of_get hget
    simp only
    by_cases hactive : space.series.active now = true
    · rw [if_pos hactive]
      apply JsMap.get_eq_some_iff.2
      exact List.mem_map.2 ⟨(key, space), List.mem_filter.2 ⟨hmem, hactive⟩, rfl⟩
    · rw [if_neg hactive]
      cases hreported : (reportSpaces options st now).get key with
      | none => rfl
      | some reported =>
        obtain ⟨e, he, heq⟩ := List.mem_map.1 (JsMap.mem_of_get hreported)
        have hkey : st.spaces.get e.1 = some e.2 := JsMap.get_of_mem (List.mem_filter.1 he).1
        cases heq
        rw [hget] at hkey
        cases hkey
        exact absurd (List.mem_filter.1 he).2 hactive

/-- The window a commit goes into, where no space is evicted for it. -/
theorem spaceWindow_roomy {commit : RecordedCommit}
    (hroom : st.spaces.get commit.space = none → st.spaces.entries.length < options.maxSpaces) :
    (spaceWindow options st commit.space).1 = st.spaces ∧
      ((st.spaces.get commit.space = none ∧
          (spaceWindow options st commit.space).2 = ⟨st.sequence, [], JsMap.empty, none⟩) ∨
        st.spaces.get commit.space = some (spaceWindow options st commit.space).2) := by
  rw [spaceWindow]
  cases hget : st.spaces.get commit.space with
  | none =>
    have hlt := hroom hget
    rw [if_neg (not_le.2 hlt)]
    exact ⟨rfl, .inl ⟨rfl, rfl⟩⟩
  | some space => exact ⟨rfl, .inr rfl⟩

theorem record_snd (commit : RecordedCommit) : (record options st now commit).2 =
    inStorm options (recordSpace options (spaceWindow options st commit.space).2 now commit
      (st.sequence + 1)) now := rfl

/-- A window that is opened anew tracks what no window did. -/
theorem Tracked.opened {times : List ℤ} {sequence : ℕ} (h : Tracked options times now none) :
    Tracked options times now (some ⟨sequence, [], JsMap.empty, none⟩) :=
  ⟨h.series, h.run⟩

end State

section Run

variable {options : Options} {calls : List Call} {call : Call}

theorem Ordered.last (h : Ordered (calls ++ [call])) : ∀ c ∈ calls, c.now ≤ call.now := by
  intro c hc
  rw [Ordered, List.map_append, List.pairwise_append] at h
  exact h.2.2 c.now (List.mem_map_of_mem hc) call.now (by simp)

theorem Ordered.init (h : Ordered (calls ++ [call])) : Ordered calls := by
  rw [Ordered, List.map_append, List.pairwise_append] at h
  exact h.1

/-- The window of the space that a commit is recorded in, before it is counted. -/
theorem Roomy.window {now : ℤ} {commit : RecordedCommit}
    (hroomy : Roomy options (calls ++ [⟨now, .record commit⟩]))
    (htracked : Tracked options (commitTimes calls commit.space) now
      ((run options calls).spaces.get commit.space)) :
    Tracked options (commitTimes calls commit.space) now
      (some (spaceWindow options (run options calls) commit.space).2) := by
  obtain ⟨-, hfound⟩ := spaceWindow_roomy (hroomy calls now commit [] rfl)
  rcases hfound with ⟨hnone, hopened⟩ | hsome
  · rw [hnone] at htracked
    rw [hopened]
    exact htracked.opened
  · rw [hsome] at htracked
    exact htracked

theorem tracked_step {upTo : ℤ} (hroomy : Roomy options (calls ++ [call])) (hle : upTo ≤ call.now)
    (h : ∀ key, Tracked options (commitTimes calls key) upTo ((run options calls).spaces.get key))
    (key : JsString) :
    Tracked options (commitTimes (calls ++ [call]) key) call.now
      ((run options (calls ++ [call])).spaces.get key) := by
  have hbefore := (h key).mono hle
  obtain ⟨now, op⟩ := call
  rw [run_concat, commitTimes_concat]
  cases op with
  | record commit =>
    obtain ⟨hspaces, -⟩ := spaceWindow_roomy (hroomy calls now commit [] rfl)
    simp only [apply, record, hspaces]
    by_cases hkey : commit.space = key
    · subst hkey
      obtain ⟨hseries, hrun⟩ := (hroomy.window hbefore).recordSpace (le_refl now) commit
        ((run options calls).sequence + 1)
      rw [JsMap.get_set_self]
      have hone : commitTimes [⟨now, .record commit⟩] commit.space = [now] := by
        simp [commitTimes]
      rw [hone]
      refine ⟨hseries, now, le_refl _, ?_, hrun⟩
      obtain ⟨last, hlast, htimes, -⟩ := hbefore.run
      intro t ht
      rcases List.mem_append.1 ht with ht | ht
      · exact (htimes t ht).trans hlast
      · rw [List.mem_singleton.1 ht]
    · rw [JsMap.get_set_other _ hkey]
      have hnone : commitTimes [⟨now, .record commit⟩] key = [] := by
        simp [commitTimes, hkey]
      rw [hnone, List.append_nil]
      exact hbefore
  | report =>
    have hnone : commitTimes [⟨now, .report⟩] key = [] := rfl
    rw [hnone, List.append_nil]
    simp only [apply, report, get_reportSpaces]
    cases hget : (run options calls).spaces.get key with
    | none =>
      rw [hget] at hbefore
      exact hbefore
    | some space =>
      rw [hget] at hbefore
      simp only
      split
      case isTrue => exact (hbefore.reportSpace (le_refl now)).1
      case isFalse hinactive =>
        exact hbefore.inactive (le_refl now) (Bool.eq_false_iff.2 hinactive)

/-- In every run the tracker holds each space's commits and runs. -/
theorem tracked_run (hordered : Ordered calls) (hroomy : Roomy options calls) {upTo : ℤ}
    (hupTo : ∀ c ∈ calls, c.now ≤ upTo) (key : JsString) :
    Tracked options (commitTimes calls key) upTo ((run options calls).spaces.get key) := by
  induction calls using List.reverseRecOn generalizing upTo key with
  | nil =>
    have hempty : Holds [] upTo [] := ⟨List.Pairwise.nil, by simp, by simp [seriesTotal]⟩
    refine ⟨hempty, upTo, le_refl _, by simp [commitTimes], ?_⟩
    intro s hs
    exact absurd hs.commit List.not_mem_nil
  | append_singleton calls call ih =>
    have hstep := tracked_step hroomy (le_refl call.now)
      (fun key => ih hordered.init hroomy.init hordered.last key) key
    exact hstep.mono (hupTo call (by simp))

end Run

/-- A space is judged to be in a storm, by a record or by a report, exactly when it is in one. -/
theorem storm_judged_iff (options : Options) (calls : List Call) :
    (∀ now commit, Ordered (calls ++ [⟨now, .record commit⟩]) →
      Roomy options (calls ++ [⟨now, .record commit⟩]) →
      ((record options (run options calls) now commit).2 = true ↔
        Storm options (commitTimes (calls ++ [⟨now, .record commit⟩]) commit.space) now)) ∧
    ∀ now, Ordered (calls ++ [⟨now, .report⟩]) → Roomy options calls → ∀ space,
      ((∃ row ∈ reportRows options (run options calls) now,
          row.space = space ∧ row.storm.isSome = true) ↔
        Storm options (commitTimes calls space) now) := by
  constructor
  case left =>
    intro now commit hordered hroomy
    have hbefore := tracked_run hordered.init hroomy.init hordered.last commit.space
    obtain ⟨-, hrun⟩ := (hroomy.window hbefore).recordSpace (le_refl now) commit
      ((run options calls).sequence + 1)
    have hone : commitTimes (calls ++ [⟨now, .record commit⟩]) commit.space =
        commitTimes calls commit.space ++ [now] := by
      rw [commitTimes_concat]
      simp [commitTimes]
    rw [hone, record_snd]
    exact hrun.storm_iff
  case right =>
    intro now hordered hroomy space
    have hbefore := tracked_run hordered.init hroomy hordered.last space
    constructor
    · rintro ⟨row, hrow, rfl, hstorm⟩
      obtain ⟨⟨key, reported⟩, he, rfl⟩ := List.mem_map.1 hrow
      obtain ⟨⟨key', window⟩, hkept, heq⟩ := List.mem_map.1 he
      cases heq
      have hget : (run options calls).spaces.get key' = some window :=
        JsMap.get_of_mem (List.mem_filter.1 hkept).1
      simp only [spaceRates] at hbefore hstorm ⊢
      rw [hget] at hbefore
      apply ((hbefore.reportSpace (le_refl now)).2).storm_iff.1
      by_contra hcalm
      rw [if_neg hcalm] at hstorm
      cases hstorm
    · intro hstorm
      have hmissing : ∀ times, Tracked options times now none → ¬Storm options times now := by
        intro times htracked
        obtain ⟨last, hlast, -, hrun⟩ := htracked.run
        rintro ⟨s, hs, -⟩
        exact hrun s (hs.mono hlast)
      cases hget : (run options calls).spaces.get space with
      | none =>
        rw [hget] at hbefore
        exact absurd hstorm (hmissing _ hbefore)
      | some window =>
        rw [hget] at hbefore
        by_cases hactive : window.series.active now = true
        · refine ⟨spaceRates options space (reportSpace options window now) now, ?_, rfl, ?_⟩
          · apply List.mem_map.2
            refine ⟨(space, reportSpace options window now), ?_, rfl⟩
            apply JsMap.mem_of_get
            rw [get_reportSpaces, hget]
            exact if_pos hactive
          · have hin := (hbefore.reportSpace (le_refl now)).2.storm_iff.2 hstorm
            simp only [spaceRates, if_pos hin]
            rw [inStorm] at hin
            cases hsince : (reportSpace options window now).overSince with
            | none => rw [hsince] at hin; cases hin
            | some since => rfl
        · exact absurd hstorm (hmissing _ (hbefore.inactive (le_refl now)
            (Bool.eq_false_iff.2 hactive)))

/-- A commit a minute, sustained for a second, is a storm. -/
def lowOptions : Options := ⟨⟨1, 1, one_pos⟩, 2, 2, 2, 2⟩

def someCommit : RecordedCommit := ⟨⟨[]⟩, ⟨[]⟩, none, true, 1⟩

theorem roomy_twice : Roomy lowOptions ([⟨0, .record someCommit⟩] ++ [⟨1000, .record someCommit⟩]) := by
  intro before now commit after heq _
  cases before with
  | nil => decide
  | cons first before =>
    cases before with
    | nil =>
      injection heq with hfirst _
      subst hfirst
      decide +kernel
    | cons second before =>
      injection heq with _ hrest
      injection hrest with _ hnil
      exact absurd hnil (by simp)

theorem storm_judged_after_second :
    (record lowOptions (run lowOptions [⟨0, .record someCommit⟩]) 1000 someCommit).2 = true ∧
      Storm lowOptions (commitTimes ([⟨0, .record someCommit⟩] ++ [⟨1000, .record someCommit⟩])
        someCommit.space) 1000 := by
  have hjudged :
      (record lowOptions (run lowOptions [⟨0, .record someCommit⟩]) 1000 someCommit).2 = true := by
    decide +kernel
  have hordered : Ordered ([⟨0, .record someCommit⟩] ++ [⟨1000, .record someCommit⟩]) := by
    simp [Ordered]
  exact ⟨hjudged, ((storm_judged_iff lowOptions [⟨0, .record someCommit⟩]).1 1000 someCommit hordered
    roomy_twice).1 hjudged⟩

end CommitRates
