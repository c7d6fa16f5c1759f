import Mathlib.Data.List.Induction
import Mathlib.Data.List.Nodup
import Mathlib.Data.List.Perm.Subperm
import Mathlib.Order.Lattice

/-!
# Sorted maps read as circles

A sorted map is a strictly sorted list of pairs. Read as a circle, it is walked
upward from a start position, past the largest position to the smallest one, and
back to the start. `seek` finds where a walk begins and `next` makes one step of
it; `walk` is the whole round.

The owners met on a walk, each listed where it is first met, are `firsts`.
Taking one owner off the circle takes it off every such list and leaves the
order of the others alone.
-/

namespace ClockwiseWalk

variable {K V : Type} [LinearOrder K]

structure SortedMap (K V : Type) [LinearOrder K] where
  entries : List (K × V)
  sorted : entries.Pairwise fun a b => a.1 < b.1

namespace SortedMap

def empty : SortedMap K V := ⟨[], List.Pairwise.nil⟩

/-- Set the value at a position, whether or not there is one. -/
def insert (m : SortedMap K V) (k : K) (v : V) : SortedMap K V where
  entries := m.entries.filter (fun e => e.1 < k) ++ (k, v) :: m.entries.filter (fun e => k < e.1)
  sorted := by
    rw [List.pairwise_append, List.pairwise_cons]
    refine ⟨m.sorted.filter _, ⟨?_, m.sorted.filter _⟩, ?_⟩
    · intro e he
      simpa using (List.mem_filter.mp he).2
    · intro a ha b hb
      have hak : a.1 < k := by simpa using (List.mem_filter.mp ha).2
      rcases List.mem_cons.mp hb with rfl | hb
      · exact hak
      · exact hak.trans (by simpa using (List.mem_filter.mp hb).2)

def erase (m : SortedMap K V) (k : K) : SortedMap K V :=
  ⟨m.entries.filter fun e => e.1 ≠ k, m.sorted.filter _⟩

def lowerBound (m : SortedMap K V) (k : K) : Option (K × V) :=
  m.entries.find? fun e => k ≤ e.1

def begin (m : SortedMap K V) : Option (K × V) := m.entries.head?

/-- The first position at or after `k`, or else the smallest one. -/
def seek (m : SortedMap K V) (k : K) : Option (K × V) := (m.lowerBound k).or m.begin

/-- One step of a walk from position `k`. -/
def next (m : SortedMap K V) (k : K) : Option (K × V) :=
  (m.entries.find? fun e => k < e.1).or m.begin

/-- The whole round from `h`. -/
def walk (m : SortedMap K V) (h : K) : List (K × V) :=
  m.entries.filter (fun e => h ≤ e.1) ++ m.entries.filter (fun e => e.1 < h)

variable (m : SortedMap K V)

theorem mem_insert {k : K} {v : V} {e : K × V} :
    e ∈ (m.insert k v).entries ↔ e = (k, v) ∨ (e ∈ m.entries ∧ e.1 ≠ k) := by
  simp only [insert, List.mem_append, List.mem_cons, List.mem_filter, decide_eq_true_eq]
  constructor
  · rintro (⟨he, hlt⟩ | rfl | ⟨he, hlt⟩)
    · exact Or.inr ⟨he, hlt.ne⟩
    · exact Or.inl rfl
    · exact Or.inr ⟨he, hlt.ne'⟩
  · rintro (rfl | ⟨he, hne⟩)
    · exact Or.inr (Or.inl rfl)
    · rcases lt_or_gt_of_ne hne with hlt | hgt
      · exact Or.inl ⟨he, hlt⟩
      · exact Or.inr (Or.inr ⟨he, hgt⟩)

theorem mem_erase {k : K} {e : K × V} :
    e ∈ (m.erase k).entries ↔ e ∈ m.entries ∧ e.1 ≠ k := by
  simp [erase]

theorem mem_walk {h : K} {e : K × V} : e ∈ m.walk h ↔ e ∈ m.entries := by
  simp only [walk, List.mem_append, List.mem_filter, decide_eq_true_eq]
  constructor
  · rintro (he | he)
    · exact he.1
    · exact he.1
  · intro he
    rcases le_or_gt h e.1 with hle | hlt
    · exact Or.inl ⟨he, hle⟩
    · exact Or.inr ⟨he, hlt⟩

/-- A sorted list is determined by its elements. -/
theorem entries_eq_of_mem_iff {l l' : List (K × V)}
    (hl : l.Pairwise fun a b => a.1 < b.1) (hl' : l'.Pairwise fun a b => a.1 < b.1)
    (h : ∀ e, e ∈ l ↔ e ∈ l') : l = l' := by
  have nodup : ∀ {l : List (K × V)}, (l.Pairwise fun a b => a.1 < b.1) → l.Nodup :=
    fun hl => hl.imp fun hlt heq => absurd (congrArg Prod.fst heq) hlt.ne
  have perm : l.Perm l' := (List.perm_ext_iff_of_nodup (nodup hl) (nodup hl')).mpr h
  exact List.Perm.eq_of_pairwise (fun _ _ _ _ hab hba => absurd hab (lt_asymm hba)) hl hl' perm

/-- The two halves of a walk, put back in order. -/
theorem halves_eq (h : K) :
    m.entries.filter (fun e => e.1 < h) ++ m.entries.filter (fun e => h ≤ e.1) = m.entries := by
  apply entries_eq_of_mem_iff ?_ m.sorted
  · intro e
    rw [List.mem_append, or_comm, ← List.mem_append]
    exact m.mem_walk
  · refine List.pairwise_append.mpr ⟨m.sorted.filter _, m.sorted.filter _, ?_⟩
    intro a ha b hb
    have hah : a.1 < h := by simpa using (List.mem_filter.mp ha).2
    exact lt_of_lt_of_le hah (by simpa using (List.mem_filter.mp hb).2)

theorem mem_foldl_insert {ι : Type} (pos : ι → K) (v : V) (is : List ι) {k : K} {v' : V} :
    (k, v') ∈ (is.foldl (fun m i => m.insert (pos i) v) m).entries ↔
      (v' = v ∧ ∃ i ∈ is, k = pos i) ∨ ((k, v') ∈ m.entries ∧ ∀ i ∈ is, k ≠ pos i) := by
  induction is generalizing m with
  | nil => simp
  | cons i is ih =>
    rw [List.foldl_cons, ih, m.mem_insert]
    simp only [Prod.mk.injEq, List.exists_mem_cons_iff, List.forall_mem_cons]
    have later : (∀ i ∈ is, k ≠ pos i) ↔ ¬ ∃ i ∈ is, k = pos i := by
      simp
    rw [later]
    by_cases h : ∃ i ∈ is, k = pos i
    · simp [h]
    · simp only [h, and_false, false_or, or_false, not_false_eq_true, and_true]
      tauto

theorem mem_foldl_erase {ι : Type} (pos : ι → K) (is : List ι) {e : K × V} :
    e ∈ (is.foldl (fun m i => m.erase (pos i)) m).entries ↔
      e ∈ m.entries ∧ ∀ i ∈ is, e.1 ≠ pos i := by
  induction is generalizing m with
  | nil => simp
  | cons i is ih =>
    rw [List.foldl_cons, ih, m.mem_erase, List.forall_mem_cons, and_assoc]

/-- Up to a position that is set, a walk stays the same. -/
theorem walk_insert_split (p : K) (v : V) (h : K) : ∃ front back back',
    m.walk h = front ++ back ∧ (m.insert p v).walk h = front ++ (p, v) :: back' := by
  have low : ∀ e ∈ m.entries.filter (fun e => e.1 < p), e.1 < p :=
    fun e he => by simpa using (List.mem_filter.mp he).2
  rcases le_or_gt h p with hle | hlt
  · refine ⟨(m.entries.filter fun e => e.1 < p).filter fun e => h ≤ e.1,
      (m.entries.filter fun e => p ≤ e.1).filter (fun e => h ≤ e.1) ++
        m.entries.filter (fun e => e.1 < h),
      (m.entries.filter fun e => p < e.1).filter (fun e => h ≤ e.1) ++
        (m.insert p v).entries.filter (fun e => e.1 < h), ?_, ?_⟩
    · rw [walk, ← List.append_assoc, ← List.filter_append, m.halves_eq p]
    · have keep : decide (h ≤ (p, v).1) = true := by simpa using hle
      rw [walk]
      conv_lhs => rw [insert]
      rw [List.filter_append, List.filter_cons_of_pos (by exact keep)]
      simp [insert]
  · -- what comes before `p` is the part above `h` and the part below `p`
    have above : (m.entries.filter fun e => p < e.1).filter (fun e => h ≤ e.1) =
        m.entries.filter fun e => h ≤ e.1 := by
      rw [List.filter_filter]
      refine List.filter_congr fun e _ => ?_
      by_cases hh : h ≤ e.1
      · simp [hh, hlt.trans_le hh]
      · simp [hh]
    have none_low : (m.entries.filter fun e => e.1 < p).filter (fun e => h ≤ e.1) = [] := by
      rw [List.filter_eq_nil_iff]
      intro e he
      simpa using (low e he).trans hlt
    have all_low : (m.entries.filter fun e => e.1 < p).filter (fun e => e.1 < h) =
        m.entries.filter fun e => e.1 < p := by
      rw [List.filter_eq_self]
      intro e he
      simpa using (low e he).trans hlt
    have skip : decide (h ≤ (p, v).1) = false := by simpa using hlt
    have keep : decide ((p, v).1 < h) = true := by simpa using hlt
    refine ⟨m.entries.filter (fun e => h ≤ e.1) ++ m.entries.filter (fun e => e.1 < p),
      (m.entries.filter fun e => p ≤ e.1).filter (fun e => e.1 < h),
      (m.entries.filter fun e => p < e.1).filter (fun e => e.1 < h), ?_, ?_⟩
    · rw [walk, List.append_assoc]
      congr 1
      conv_lhs => rw [← m.halves_eq p, List.filter_append, all_low]
    · rw [walk, insert]
      simp only [List.filter_append, none_low, all_low, above, List.nil_append,
        List.filter_cons, skip, keep, if_true, List.append_assoc]
      simp

/-- A walk skips what is taken off the map. -/
theorem walk_of_entries_filter (m' : SortedMap K V) (p : K × V → Bool)
    (he : m'.entries = m.entries.filter p) (h : K) : m'.walk h = (m.walk h).filter p := by
  simp only [walk, he, List.filter_append, List.filter_filter, Bool.and_comm]

theorem length_walk (h : K) : (m.walk h).length = m.entries.length := by
  have hlen := congrArg List.length (m.halves_eq h)
  simp only [List.length_append] at hlen
  simp only [walk, List.length_append]
  omega

/-- A walk begins where `seek` points. -/
theorem seek_eq_head_walk (h : K) : m.seek h = (m.walk h).head? := by
  have hhead : m.entries.head? =
      (m.entries.filter (fun e => e.1 < h) ++ m.entries.filter (fun e => h ≤ e.1)).head? := by
    rw [m.halves_eq h]
  rw [seek, begin, lowerBound, ← List.head?_filter, walk, List.head?_append]
  cases hA : m.entries.filter (fun e => h ≤ e.1) with
  | nil => rw [hhead, hA, List.append_nil]
  | cons a A => rfl

/-- Neighbours in the sorted list are one step apart. -/
theorem next_of_entries {x y : List (K × V)} {e e' : K × V}
    (h : m.entries = x ++ e :: e' :: y) : m.next e.1 = some e' := by
  have sorted := m.sorted
  rw [h, List.pairwise_append, List.pairwise_cons] at sorted
  obtain ⟨_, ⟨after, _⟩, before⟩ := sorted
  have hx : x.find? (fun a => e.1 < a.1) = none := by
    rw [List.find?_eq_none]
    intro a ha
    simpa using (before a ha e List.mem_cons_self).le
  have he : e.1 < e'.1 := after e' List.mem_cons_self
  rw [next, h, List.find?_append, hx]
  simp [he]

/-- From the largest position the step leads to the smallest one. -/
theorem next_of_last {x : List (K × V)} {e : K × V} (h : m.entries = x ++ [e]) :
    m.next e.1 = m.begin := by
  have sorted := m.sorted
  rw [h, List.pairwise_append] at sorted
  have none_after : m.entries.find? (fun a => e.1 < a.1) = none := by
    rw [List.find?_eq_none, h]
    intro a ha
    rcases List.mem_append.mp ha with hax | hae
    · simpa using (sorted.2.2 a hax e List.mem_cons_self).le
    · rw [List.mem_singleton.mp hae]
      simp
  rw [next, none_after]
  rfl

theorem next_of_walk {h : K} {pre post : List (K × V)} {e e' : K × V}
    (hw : m.walk h = pre ++ e :: e' :: post) : m.next e.1 = some e' := by
  have halves := m.halves_eq h
  rw [walk] at hw
  generalize m.entries.filter (fun e => h ≤ e.1) = A at hw halves
  generalize m.entries.filter (fun e => e.1 < h) = B at hw halves
  rcases List.append_eq_append_iff.mp hw with ⟨as, rfl, hB⟩ | ⟨bs, hA, hbs⟩
  · -- both lie in the lower half
    exact m.next_of_entries (x := as) (y := post ++ A) (by rw [← halves, hB]; simp)
  · match bs with
    | [] =>
      rw [List.nil_append] at hbs
      exact m.next_of_entries (x := []) (y := post ++ A) (by rw [← halves, ← hbs]; simp)
    | [b] =>
      -- the step across the top of the circle
      rw [List.singleton_append, List.cons.injEq] at hbs
      obtain ⟨rfl, hB⟩ := hbs
      have hlast : m.entries = (e' :: post ++ pre) ++ [e] := by
        rw [← halves, hA, ← hB]; simp
      rw [m.next_of_last hlast, begin, hlast]
      rfl
    | b :: b' :: zs =>
      simp only [List.cons_append, List.cons.injEq] at hbs
      obtain ⟨rfl, rfl, rfl⟩ := hbs
      exact m.next_of_entries (x := B ++ pre) (y := zs) (by rw [← halves, hA]; simp)

/-- The last step of a walk leads back to its start. -/
theorem next_of_walk_last {h : K} {pre : List (K × V)} {e : K × V}
    (hw : m.walk h = pre ++ [e]) : m.next e.1 = (m.walk h).head? := by
  have halves := m.halves_eq h
  rw [walk] at hw ⊢
  generalize m.entries.filter (fun e => h ≤ e.1) = A at hw halves
  generalize m.entries.filter (fun e => e.1 < h) = B at hw halves
  rcases List.append_eq_append_iff.mp hw with ⟨as, rfl, rfl⟩ | ⟨bs, rfl, hbs⟩
  · match A with
    | [] =>
      rw [m.next_of_last (x := as) (by rw [← halves]; simp), begin, ← halves]
      simp
    | a :: A =>
      exact m.next_of_entries (x := as) (y := A) (by rw [← halves]; simp)
  · match bs, B, hbs with
    | [], [_], rfl =>
      match pre with
      | [] =>
        rw [m.next_of_last (x := []) (by rw [← halves]; rfl), begin, ← halves]
        simp
      | a :: pre =>
        exact m.next_of_entries (x := []) (y := pre) (by rw [← halves]; simp)
    | [_], [], rfl =>
      rw [m.next_of_last (x := pre) (by rw [← halves]; simp), begin, ← halves]
      simp

end SortedMap

section Firsts

variable [DecidableEq V]

omit [LinearOrder K] in
theorem eraseDups_concat (l : List V) (v : V) :
    (l ++ [v]).eraseDups = if v ∈ l then l.eraseDups else l.eraseDups ++ [v] := by
  rw [List.eraseDups_append]
  by_cases h : v ∈ l
  · simp [List.removeAll, h]
  · simp [List.removeAll, h, List.eraseDups_cons]

theorem nodup_eraseDups (l : List V) : l.eraseDups.Nodup := by
  induction l using List.reverseRecOn with
  | nil => simp
  | append_singleton l v ih =>
    rw [eraseDups_concat]
    split
    · exact ih
    · rename_i h
      refine List.nodup_append.mpr ⟨ih, List.nodup_singleton v, ?_⟩
      intro a ha b hb
      rw [List.mem_singleton.mp hb]
      exact fun hab => h (hab ▸ List.mem_eraseDups.mp ha)

/-- Lists that go apart where `v` comes in the second one have the same first values up
to there; so whoever is among the first `n` stays there, or `v` is. -/
theorem mem_take_of_split {front back back' : List V} {v w : V} {n : Nat}
    (hw : w ∈ (front ++ back).eraseDups.take n) :
    w ∈ (front ++ v :: back').eraseDups.take n ∨ v ∈ (front ++ v :: back').eraseDups.take n := by
  by_cases hn : n ≤ front.eraseDups.length
  · left
    rw [List.eraseDups_append, List.take_append_of_le_length hn] at hw ⊢
    exact hw
  · right
    have hv : v ∈ (front ++ [v]).eraseDups := by simp
    have hlength : (front ++ [v]).eraseDups.length ≤ n := by
      rw [eraseDups_concat]
      split
      · omega
      · rw [List.length_append, List.length_singleton]
        omega
    rw [List.append_cons, List.eraseDups_append, List.take_append, List.take_of_length_le hlength]
    exact List.mem_append_left _ hv

/-- Owners that are left out do not change the order in which the others are met. -/
theorem eraseDups_filter (p : V → Bool) (l : List V) :
    (l.filter p).eraseDups = l.eraseDups.filter p := by
  induction l using List.reverseRecOn with
  | nil => rfl
  | append_singleton l v ih =>
    rw [List.filter_append, eraseDups_concat]
    by_cases hp : p v = true
    · have keep : [v].filter p = [v] := by simp [hp]
      rw [keep, eraseDups_concat, ih]
      by_cases hv : v ∈ l
      · rw [if_pos hv, if_pos (List.mem_filter.mpr ⟨hv, hp⟩)]
      · rw [if_neg hv, if_neg (fun h => hv (List.mem_filter.mp h).1), List.filter_append, keep]
    · have drop : [v].filter p = [] := by simp [hp]
      rw [drop, List.append_nil, ih]
      by_cases hv : v ∈ l
      · rw [if_pos hv]
      · rw [if_neg hv, List.filter_append, drop, List.append_nil]

theorem length_le_filter_ne {l : List V} (nodup : l.Nodup) (v : V) :
    l.length ≤ (l.filter fun a => a ≠ v).length + 1 := by
  have inside : ∀ a ∈ l, a ∈ v :: l.filter fun a => a ≠ v := by
    intro a ha
    by_cases hv : a = v
    · exact hv ▸ List.mem_cons_self
    · exact List.mem_cons_of_mem _ (List.mem_filter.mpr ⟨ha, by simpa using hv⟩)
  exact (nodup.subperm inside).length_le

/-- Either `v` is not among the first `n` of a list, which then stay the same
without it, or everything behind `v` moves up by one place. -/
theorem take_filter_ne_cases {l : List V} (nodup : l.Nodup) (v : V) (n : Nat) :
    (v ∉ l.take n ∧ (l.filter fun a => a ≠ v).take n = l.take n) ∨
      ∃ front back, l = front ++ v :: back ∧ front.length < n ∧
        l.take n = front ++ v :: back.take (n - front.length - 1) ∧
        (l.filter fun a => a ≠ v).take n = front ++ back.take (n - front.length) := by
  by_cases hv : v ∈ l
  · obtain ⟨front, back, rfl⟩ := List.append_of_mem hv
    obtain ⟨_, hback, disjoint⟩ := List.nodup_append.mp nodup
    have hfront : front.filter (fun a => a ≠ v) = front := by
      rw [List.filter_eq_self]
      intro a ha
      simpa using disjoint a ha v List.mem_cons_self
    have hrest : (v :: back).filter (fun a => a ≠ v) = back := by
      rw [List.filter_cons_of_neg (by simp), List.filter_eq_self]
      intro a ha
      have hne : a ≠ v := fun h => (List.nodup_cons.mp hback).1 (h ▸ ha)
      simpa using hne
    rw [List.filter_append, hfront, hrest]
    by_cases hn : front.length < n
    · right
      refine ⟨front, back, rfl, hn, ?_, ?_⟩
      · obtain ⟨k, hk⟩ : ∃ k, n - front.length = k + 1 := ⟨n - front.length - 1, by omega⟩
        rw [List.take_append, List.take_of_length_le (Nat.le_of_lt hn), hk]
        simp
      · rw [List.take_append, List.take_of_length_le (Nat.le_of_lt hn)]
    · left
      have hle : n ≤ front.length := Nat.le_of_not_lt hn
      rw [List.take_append_of_le_length hle, List.take_append_of_le_length hle]
      exact ⟨fun h => disjoint v (List.mem_of_mem_take h) v List.mem_cons_self rfl, rfl⟩
  · left
    have hl : l.filter (fun a => a ≠ v) = l := by
      rw [List.filter_eq_self]
      intro a ha
      have hne : a ≠ v := fun h => hv (h ▸ ha)
      simpa using hne
    rw [hl]
    exact ⟨fun h => hv (List.mem_of_mem_take h), rfl⟩

/-- Whoever is among the first `n` stays there when somebody else leaves. -/
theorem mem_take_filter_ne {l : List V} (nodup : l.Nodup) {v w : V} {n : Nat} (hne : w ≠ v)
    (hw : w ∈ l.take n) : w ∈ (l.filter fun a => a ≠ v).take n := by
  rcases take_filter_ne_cases nodup v n with ⟨_, heq⟩ | ⟨front, back, _, _, htake, heq⟩
  · rw [heq]
    exact hw
  · rw [htake] at hw
    rw [heq]
    rcases List.mem_append.mp hw with hf | hb
    · exact List.mem_append_left _ hf
    · rcases List.mem_cons.mp hb with rfl | hb
      · exact False.elim (hne rfl)
      · exact List.mem_append_right _
          (List.take_subset_take_left _ (by omega) hb)

/-- Deleting one value from the first `n + 1` leaves the first `n` of the others. -/
theorem take_filter_take_succ {l : List V} (nodup : l.Nodup) (v : V) (n : Nat) :
    ((l.take (n + 1)).filter fun a => a ≠ v).take n = (l.filter fun a => a ≠ v).take n := by
  have split : l.filter (fun a => a ≠ v) = (l.take (n + 1)).filter (fun a => a ≠ v) ++
      (l.drop (n + 1)).filter (fun a => a ≠ v) := by
    rw [← List.filter_append, List.take_append_drop]
  by_cases hlong : n ≤ ((l.take (n + 1)).filter fun a => a ≠ v).length
  · rw [split, List.take_append_of_le_length hlong]
  · have hlength := length_le_filter_ne (l := l.take (n + 1)) nodup.take v
    rw [List.length_take] at hlength
    rw [List.take_of_length_le (by omega : l.length ≤ n + 1)]

/-- One departure lets at most one newcomer into the first `n`. -/
theorem newcomer_unique {l : List V} (nodup : l.Nodup) {v a b : V} {n : Nat}
    (ha : a ∈ (l.filter fun a => a ≠ v).take n) (ha' : a ∉ l.take n)
    (hb : b ∈ (l.filter fun a => a ≠ v).take n) (hb' : b ∉ l.take n) : a = b := by
  rcases take_filter_ne_cases nodup v n with ⟨_, heq⟩ | ⟨front, back, _, hlt, htake, heq⟩
  · rw [heq] at ha
    exact False.elim (ha' ha)
  · -- the newcomer is the one element of `back` that moves up into the first `n`
    have newcomer : ∀ w, w ∈ (l.filter fun a => a ≠ v).take n → w ∉ l.take n →
        back[n - front.length - 1]? = some w := by
      intro w hw hw'
      rw [heq] at hw
      rw [htake] at hw'
      obtain ⟨k, hk⟩ : ∃ k, n - front.length = k + 1 := ⟨n - front.length - 1, by omega⟩
      rw [hk] at hw hw' ⊢
      rw [List.take_add_one, ← List.append_assoc, List.mem_append, List.mem_append] at hw
      simp only [Nat.add_sub_cancel, List.mem_append, List.mem_cons, not_or] at hw hw' ⊢
      rcases hw with (hw | hw) | hw
      · exact False.elim (hw'.1 hw)
      · exact False.elim (hw'.2.2 hw)
      · simpa using hw
    exact Option.some.inj ((newcomer a ha ha').symm.trans (newcomer b hb hb'))

/-- If `v` takes one of `n` places, somebody who had a place without it has none. -/
theorem displaced_exists {l : List V} (nodup : l.Nodup) {v : V} {n : Nat} (hv : v ∈ l.take n)
    (enough : n ≤ (l.filter fun a => a ≠ v).length) :
    ∃ w, w ∈ (l.filter fun a => a ≠ v).take n ∧ w ∉ l.take n := by
  by_contra none_left
  push Not at none_left
  have inside : ∀ w ∈ v :: (l.filter fun a => a ≠ v).take n, w ∈ l.take n := by
    intro w hw
    rcases List.mem_cons.mp hw with rfl | hw
    · exact hv
    · exact none_left w hw
  have distinct : (v :: (l.filter fun a => a ≠ v).take n).Nodup := by
    refine List.nodup_cons.mpr ⟨?_, (nodup.filter _).take⟩
    intro h
    simpa using (List.mem_filter.mp (List.mem_of_mem_take h)).2
  have count := (distinct.subperm inside).length_le
  rw [List.length_cons, List.length_take, List.length_take] at count
  omega

end Firsts

end ClockwiseWalk
