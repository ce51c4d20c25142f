import Mathlib

/-! Counting sort into numbered buckets: tally the buckets, give each its first place, and put
every item at its bucket's cursor. The result is the buckets one after another, each in the order
of the items.
-/

namespace Thredis.Lib
open Function
open List

universe u

variable {α : Type u}

variable (bucket : α → Nat)

def tally (items : List α) : Nat → Nat :=
  items.foldl (fun counts item => Function.update counts (bucket item) (counts (bucket item) + 1))
    fun _ => 0

def startPlaces (counts : Nat → Nat) (buckets : Nat) : (Nat → Nat) × Nat :=
  (List.range buckets).foldl (fun (starts, out) bucket =>
    if counts bucket = 0 then (starts, out)
    else (Function.update starts bucket out, out + counts bucket)) (fun _ => 0, 0)

def placeAt (filled : List (Option α) × (Nat → Nat)) (item : α)
    : List (Option α) × (Nat → Nat) :=
  let cursor := filled.2 (bucket item)
  (filled.1.set cursor (some item), Function.update filled.2 (bucket item) (cursor + 1))

def bucketSort (buckets : Nat) (items : List α) : List (Option α) :=
  (items.foldl (placeAt bucket)
    (List.replicate items.length none, (startPlaces (tally bucket items) buckets).1)).1

def inBuckets (buckets : Nat) (items : List α) : List α :=
  (List.range buckets).flatMap fun which => items.filter (bucket · = which)

variable (bucket : α → Nat) (buckets : Nat) (items : List α)

theorem inBuckets_succ
    : inBuckets bucket (buckets + 1) items
      = inBuckets bucket buckets items ++ items.filter (bucket · = buckets) := by
  simp [inBuckets, range_succ]

/-- Witness: induction over the buckets; the next bucket's items join those below it. -/
theorem inBuckets_perm_filter
    : (inBuckets bucket buckets items).Perm (items.filter (bucket · < buckets)) := by
  induction buckets with
  | zero => simp [inBuckets]
  | succ buckets ih =>
    rw [inBuckets_succ]
    refine (ih.append_right _).trans ?_
    have split := filter_append_perm (bucket · < buckets) (items.filter (bucket · < buckets + 1))
    rw [filter_filter, filter_filter] at split
    refine Eq.subst (motive := fun both => List.Perm both _) ?_ split
    congr 1
    all_goals
      refine filter_congr fun item _ => ?_
      rw [Bool.eq_iff_iff]
      simp
      omega

variable {bucket : α → Nat} {buckets : Nat} {items : List α}

theorem inBuckets_perm (inside : ∀ item ∈ items, bucket item < buckets)
    : (inBuckets bucket buckets items).Perm items := by
  have whole : items.filter (bucket · < buckets) = items :=
    filter_eq_self.mpr fun item member => by simpa using inside item member
  exact (inBuckets_perm_filter bucket buckets items).trans (.of_eq whole)

/-- Items that already stand in the order of their buckets stay as they are.
Witness: induction over the items; the first one is in the lowest bucket.
-/
theorem inBuckets_of_ordered (ordered : items.Pairwise (bucket · ≤ bucket ·)) (buckets : Nat)
    : inBuckets bucket buckets items = items.filter (bucket · < buckets) := by
  induction buckets with
  | zero => simp [inBuckets]
  | succ buckets ih =>
    rw [inBuckets_succ, ih]
    clear ih
    induction ordered with
    | nil => rfl
    | @cons first rest below _ ih =>
      rcases Nat.lt_trichotomy (bucket first) buckets with less | same | more
      · simpa [less, Nat.le_of_lt less, Nat.lt_succ_of_lt less, Nat.ne_of_lt less] using ih
      · have none_below : rest.filter (bucket · < buckets) = [] :=
          filter_eq_nil_iff.mpr fun item member => by
            have := below item member
            simp; omega
        rw [none_below, nil_append] at ih
        simp [same, none_below, ih]
      · have none_here (limit : Nat → Bool) (low : ∀ n, limit n → n ≤ buckets)
            : (first :: rest).filter (limit <| bucket ·) = [] :=
          filter_eq_nil_iff.mpr fun item member into => by
            have := low _ into
            rcases mem_cons.mp member with rfl | member
            · omega
            · have := below item member
              omega
        rw [none_here (decide <| · < buckets) (by simp only [decide_eq_true_eq]; omega),
          none_here (decide <| · = buckets) (by simp),
          none_here (decide <| · < buckets + 1) (by simp only [decide_eq_true_eq]; omega),
          nil_append]

/-- Sorting keeps the order of a part of the items whose buckets already ascend. -/
theorem filter_inBuckets (inside : ∀ item ∈ items, bucket item < buckets) {keep : α → Bool}
    (ordered : (items.filter keep).Pairwise (bucket · ≤ bucket ·))
    : (inBuckets bucket buckets items).filter keep = items.filter keep := by
  have part : (inBuckets bucket buckets items).filter keep
      = inBuckets bucket buckets (items.filter keep) := by
    simp [inBuckets, filter_flatMap, Bool.and_comm]
  rw [part, inBuckets_of_ordered ordered, filter_eq_self]
  exact fun item member => decide_eq_true (inside item (mem_filter.mp member).1)

theorem tally_eq (bucket : α → Nat) (items : List α) (which : Nat)
    : tally bucket items which = (items.filter (bucket · = which)).length := by
  suffices counted : ∀ counts : Nat → Nat, items.foldl (fun counts item =>
      update counts (bucket item) (counts (bucket item) + 1)) counts which
      = counts which + (items.filter (bucket · = which)).length by
    simpa [tally] using counted fun _ => 0
  induction items with
  | nil => simp
  | cons item rest ih =>
    intro counts
    rw [foldl_cons, ih]
    by_cases same : bucket item = which
    · subst same
      simp
      omega
    · simp [same, update_of_ne (Ne.symm same)]

variable (counts : Nat → Nat)

def placesBelow (which : Nat) : Nat := ((List.range which).map counts).sum

theorem placesBelow_succ (which : Nat)
    : placesBelow counts (which + 1) = placesBelow counts which + counts which := by
  simp [placesBelow, range_succ]

theorem startPlaces_eq (buckets : Nat)
    : (startPlaces counts buckets).2 = placesBelow counts buckets
      ∧ ∀ which < buckets, counts which ≠ 0
        → (startPlaces counts buckets).1 which = placesBelow counts which := by
  induction buckets with
  | zero => simp [startPlaces, placesBelow]
  | succ buckets ih =>
    obtain ⟨given, starts⟩ := ih
    have next : startPlaces counts (buckets + 1) = if counts buckets = 0
        then startPlaces counts buckets
        else (update (startPlaces counts buckets).1 buckets
          (startPlaces counts buckets).2, (startPlaces counts buckets).2 + counts buckets) := by
      simp [startPlaces, range_succ]
    rw [next, placesBelow_succ]
    split
    · rename_i vacant
      refine ⟨by omega, fun which below occupied => starts which ?_ occupied⟩
      exact Nat.lt_of_le_of_ne (by omega) fun same => occupied (same ▸ vacant)
    · refine ⟨by rw [given], fun which below occupied => ?_⟩
      by_cases same : which = buckets
      · simp [same, given]
      · simpa [same] using starts which (by omega) occupied

/-- The sorted array while it is filled: in each bucket's places what was put there, then
places still free.
-/
def layout (placed : Nat → List α) (counts : Nat → Nat) (buckets : Nat) : List (Option α) :=
  (List.range buckets).flatMap fun which =>
    (placed which).map some ++ List.replicate (counts which - (placed which).length) none

section Layout

variable {placed : Nat → List α} {counts : Nat → Nat}

theorem layout_succ (placed : Nat → List α) (counts : Nat → Nat) (buckets : Nat)
    : layout placed counts (buckets + 1) = layout placed counts buckets
      ++ ((placed buckets).map some
        ++ List.replicate (counts buckets - (placed buckets).length) none) := by
  simp [layout, range_succ]

variable (fits : ∀ which, (placed which).length ≤ counts which)

include fits

theorem length_layout (buckets : Nat)
    : (layout placed counts buckets).length = placesBelow counts buckets := by
  induction buckets with
  | zero => rfl
  | succ buckets ih =>
    have := fits buckets
    simp [layout_succ, placesBelow_succ]
    omega

/-- Witness: induction over the buckets; only the item's own bucket changes. -/
theorem layout_set {which : Nat} (free : (placed which).length < counts which) (item : α)
    {buckets : Nat} (inside : which < buckets)
    : (layout placed counts buckets).set (placesBelow counts which + (placed which).length)
        (some item)
      = layout (Function.update placed which (placed which ++ [item])) counts buckets := by
  have other {below : Nat} (small : below ≤ which) : layout (update placed which
      (placed which ++ [item])) counts below = layout placed counts below := by
    refine flatMap_congr fun lower member => ?_
    rw [update_of_ne]
    have := mem_range.mp member
    omega
  induction inside with
  | refl =>
    obtain ⟨room, full⟩ := Nat.exists_eq_add_of_lt free
    rw [layout_succ, layout_succ, other (Nat.le_refl which), ← length_layout fits]
    have left : counts which - (placed which).length = room + 1 := by omega
    have after : counts which - ((placed which).length + 1) = room := by omega
    simp [left, after, replicate_succ]
  | @step buckets above ih =>
    have before : placesBelow counts which + (placed which).length
        < placesBelow counts (which + 1) := by
      rw [placesBelow_succ]
      omega
    have within : placesBelow counts (which + 1) ≤ placesBelow counts buckets := by
      clear ih
      induction above with
      | refl => exact Nat.le_refl _
      | step _ ih => exact Nat.le_trans ih (by simp [placesBelow_succ])
    have apart := Nat.ne_of_gt above
    rw [layout_succ, layout_succ, set_append_left _ _
      (by rw [length_layout fits]; omega), ih, update_of_ne apart]

end Layout

/-- Witness: induction over the items still to be placed. -/
theorem foldl_placeAt (inside : ∀ item ∈ items, bucket item < buckets) (front rest : List α)
    (whole : items = front ++ rest) (cursors : Nat → Nat)
    (at_cursor : ∀ which < buckets, tally bucket items which ≠ 0 → cursors which
      = placesBelow (tally bucket items) which + (front.filter (bucket · = which)).length)
    : (rest.foldl (placeAt bucket)
        (layout (fun which => front.filter (bucket · = which)) (tally bucket items) buckets,
          cursors)).1
      = layout (fun which => items.filter (bucket · = which)) (tally bucket items) buckets := by
  induction rest generalizing front cursors with
  | nil => simp [whole]
  | cons item rest ih =>
    have counted (which : Nat) : tally bucket items which
        = (front.filter (bucket · = which)).length
          + ((item :: rest).filter (bucket · = which)).length := by
      rw [tally_eq, whole, filter_append, length_append]
    have below := inside item (by simp [whole])
    have here : (front.filter (bucket · = bucket item)).length
        < tally bucket items (bucket item) := by
      simp [counted]
    have grown (which : Nat) : (front ++ [item]).filter (bucket · = which)
        = update (fun which => front.filter (bucket · = which)) (bucket item)
          (front.filter (bucket · = bucket item) ++ [item]) which := by
      by_cases same : which = bucket item
      · subst same
        simp
      · simp [update_of_ne same, Ne.symm same]
    rw [foldl_cons, placeAt]
    dsimp only
    rw [at_cursor _ below (by omega), layout_set (fun which => by simp [counted]) here item below,
      ← funext grown]
    refine ih (front ++ [item]) (by simp [whole]) _ fun which small occupied => ?_
    have cursor := at_cursor which small occupied
    by_cases same : which = bucket item
    · subst same
      simp [Nat.add_assoc]
    · simp [update_of_ne same, Ne.symm same, cursor]

theorem bucketSort_eq (inside : ∀ item ∈ items, bucket item < buckets)
    : bucketSort bucket buckets items = (inBuckets bucket buckets items).map some := by
  have filled : layout (fun which => items.filter (bucket · = which)) (tally bucket items) buckets
      = (inBuckets bucket buckets items).map some := by
    simp [layout, inBuckets, tally_eq, map_flatMap]
  have fresh : replicate items.length none
      = layout (fun which => ([] : List α).filter (bucket · = which)) (tally bucket items)
        buckets := by
    have lengths := congrArg length filled
    rw [length_map, (inBuckets_perm inside).length_eq,
      length_layout (by simp [tally_eq])] at lengths
    refine (eq_replicate_iff.mpr ⟨?_, ?_⟩).symm
    · rw [length_layout (by simp), lengths]
    · simp [layout]
  rw [bucketSort, fresh, ← filled]
  exact foldl_placeAt inside [] items rfl _ fun which below occupied => by
    exact (startPlaces_eq _ buckets).2 which below occupied

end Thredis.Lib
