import Mathlib.Data.List.Sort
import Mathlib.Tactic
import RaiBlocks.Foundation.Lists

/-!
# Containers with two indices

The entries of a container are found by their identity, which no two of them share, and are kept
in the order of a key, which several of them may have. A new entry is put behind
those with the same key. An entry that is replaced stays where it is as long as this keeps the
order, otherwise it is put in like a new one.
-/

namespace RaiBlocks.Foundation

structure Index {α ι κ : Type} [LinearOrder κ] (ident : α → ι) (key : α → κ) where
  entries : List α
  sorted : entries.Pairwise fun x y => key x ≤ key y
  unique : (entries.map ident).Nodup

namespace Index

variable {α ι κ : Type} [LinearOrder κ] {ident : α → ι} {key : α → κ} {l : List α} {x : α}

/-! ## Lists in order -/

/-- Put an entry behind those with the same key. -/
def link (key : α → κ) (x : α) (l : List α) : List α :=
  l.orderedInsert (fun a b => key a < key b) x

theorem perm_link (x : α) (l : List α) : (link key x l).Perm (x :: l) :=
  List.perm_orderedInsert _ x l

theorem sorted_link (h : l.Pairwise fun x y => key x ≤ key y) (x : α) :
    (link key x l).Pairwise fun x y => key x ≤ key y := by
  induction l with
  | nil => exact List.pairwise_singleton _ x
  | cons y l ih =>
    obtain ⟨hy, hl⟩ := List.pairwise_cons.mp h
    by_cases hlt : key x < key y
    · rw [link, List.orderedInsert_cons, if_pos hlt]
      refine List.pairwise_cons.mpr ⟨fun z hz => ?_, h⟩
      rcases List.mem_cons.mp hz with rfl | hz
      · exact hlt.le
      · exact hlt.le.trans (hy z hz)
    · rw [link, List.orderedInsert_cons, if_neg hlt]
      refine List.pairwise_cons.mpr ⟨fun z hz => ?_, ih hl⟩
      rcases (List.mem_orderedInsert _).mp hz with rfl | hz
      · exact not_lt.mp hlt
      · exact hy z hz

/-- Replace the entry with the identity of `x`. -/
def assign [DecidableEq ι] (ident : α → ι) (x : α) (l : List α) : List α :=
  l.map fun y => if ident y = ident x then x else y

theorem map_assign [DecidableEq ι] (x : α) (l : List α) :
    (assign ident x l).map ident = l.map ident := by
  rw [assign, List.map_map]
  refine List.map_congr_left fun y _ => ?_
  by_cases h : ident y = ident x
  · simp [h]
  · simp [h]

theorem nodup_assign [DecidableEq ι] (h : (l.map ident).Nodup) (x : α) :
    ((assign ident x l).map ident).Nodup := by
  rwa [map_assign]

/-- The entries with another identity. -/
def others [DecidableEq ι] (ident : α → ι) (x : α) (l : List α) : List α :=
  l.filter fun y => ident y ≠ ident x

theorem not_mem_map_others [DecidableEq ι] (x : α) (l : List α) :
    ident x ∉ (others ident x l).map ident := by
  intro h
  obtain ⟨y, hy, heq⟩ := List.mem_map.mp h
  simp [others, heq] at hy

theorem nodup_link (hx : ident x ∉ l.map ident) (h : (l.map ident).Nodup) :
    ((link key x l).map ident).Nodup :=
  ((perm_link x l).map ident).nodup_iff.mpr (List.nodup_cons.mpr ⟨hx, h⟩)

theorem perm_assign [DecidableEq ι] (hx : ident x ∈ l.map ident) (h : (l.map ident).Nodup) :
    (assign ident x l).Perm (x :: others ident x l) := by
  induction l with
  | nil => cases hx
  | cons y l ih =>
    obtain ⟨hy, hl⟩ := List.nodup_cons.mp h
    by_cases heq : ident y = ident x
    · have hrest : ∀ z ∈ l, ident z ≠ ident x := by
        intro z hz hzx
        exact hy (heq ▸ hzx ▸ List.mem_map_of_mem hz)
      have hassign : assign ident x l = l := by
        refine (List.map_congr_left fun z hz => ?_).trans (List.map_id l)
        exact if_neg (hrest z hz)
      have hothers : others ident x l = l :=
        List.filter_eq_self.mpr fun z hz => decide_eq_true (hrest z hz)
      have hcons : assign ident x (y :: l) = x :: assign ident x l := by simp [assign, heq]
      have hdrop : others ident x (y :: l) = others ident x l := by simp [others, heq]
      rw [hcons, hdrop, hassign, hothers]
    · have hmem : ident x ∈ l.map ident := by
        rcases List.mem_cons.mp hx with hx | hx
        · exact absurd hx.symm heq
        · exact hx
      have hcons : assign ident x (y :: l) = y :: assign ident x l := by simp [assign, heq]
      have hkeep : others ident x (y :: l) = y :: others ident x l := by simp [others, heq]
      rw [hcons, hkeep]
      exact ((ih hmem hl).cons y).trans (List.Perm.swap x y _)

/-! ## Operations -/

def empty : Index ident key := ⟨[], .nil, List.nodup_nil⟩

section Find

variable [DecidableEq ι]

def find? (t : Index ident key) (i : ι) : Option α := t.entries.find? fun x => ident x = i

/-- Nothing is inserted if the identity is there already. -/
def insert (t : Index ident key) (x : α) : Index ident key :=
  if h : ident x ∈ t.entries.map ident then t
  else
    { entries := link key x t.entries
      sorted := sorted_link t.sorted x
      unique := nodup_link h t.unique }

/-- Nothing happens if there is no entry with this identity. -/
def replace (t : Index ident key) (x : α) : Index ident key :=
  if h : (assign ident x t.entries).Pairwise fun x y => key x ≤ key y then
    { entries := assign ident x t.entries
      sorted := h
      unique := nodup_assign t.unique x }
  else
    { entries := link key x (others ident x t.entries)
      sorted := sorted_link (t.sorted.filter _) x
      unique := nodup_link (not_mem_map_others x t.entries)
        (t.unique.sublist (List.filter_sublist.map ident)) }

end Find

/-- Erase the first entry. -/
def tail (t : Index ident key) : Index ident key where
  entries := t.entries.tail
  sorted := t.sorted.sublist (List.tail_sublist _)
  unique := t.unique.sublist ((List.tail_sublist _).map ident)

/-- Erase the entries before the first whose key is at least `k`. -/
def eraseBelow (t : Index ident key) (k : κ) : Index ident key where
  entries := t.entries.dropWhile fun x => key x < k
  sorted := t.sorted.sublist (List.dropWhile_sublist _)
  unique := t.unique.sublist ((List.dropWhile_sublist _).map ident)

theorem pairwise_map {f : α → α} (hkey : ∀ x, key (f x) = key x)
    (h : l.Pairwise fun x y => key x ≤ key y) : (l.map f).Pairwise fun x y => key x ≤ key y := by
  rw [List.pairwise_map]
  simpa only [hkey] using h

theorem nodup_map {f : α → α} (hident : ∀ x, ident (f x) = ident x) (h : (l.map ident).Nodup) :
    ((l.map f).map ident).Nodup := by
  rw [List.map_map]
  simpa only [Function.comp_def, hident] using h

/-- Change all entries, but neither their identity nor their key. -/
def update (t : Index ident key) (f : α → α) (hident : ∀ x, ident (f x) = ident x)
    (hkey : ∀ x, key (f x) = key x) : Index ident key where
  entries := t.entries.map f
  sorted := pairwise_map hkey t.sorted
  unique := nodup_map hident t.unique

/-! ## What is in it -/

theorem eq_of_ident_eq {t : Index ident key} {y : α} (hx : x ∈ t.entries) (hy : y ∈ t.entries)
    (h : ident x = ident y) : x = y :=
  List.inj_on_of_nodup_map t.unique hx hy h

/-- In order, the entries before the first that is not below are those below. -/
theorem dropWhile_eq_filter (h : l.Pairwise fun x y => key x ≤ key y) (k : κ) :
    l.dropWhile (fun x => key x < k) = l.filter fun x => k ≤ key x := by
  have hstay : l.Pairwise fun x y => decide (k ≤ key x) = true → decide (k ≤ key y) = true :=
    h.imp fun hxy hx => decide_eq_true ((of_decide_eq_true hx).trans hxy)
  rw [← dropWhile_eq_filter_iff.mpr hstay]
  simp [← decide_not]

theorem mem_dropWhile_iff (h : l.Pairwise fun x y => key x ≤ key y) {k : κ} {y : α} :
    y ∈ l.dropWhile (fun x => key x < k) ↔ y ∈ l ∧ k ≤ key y := by
  rw [dropWhile_eq_filter h]
  simp

section Contents

variable [DecidableEq ι] {t : Index ident key} {y : α} {i : ι}

theorem find?_eq_some_iff : t.find? i = some x ↔ x ∈ t.entries ∧ ident x = i := by
  constructor
  · intro h
    have hident := List.find?_some h
    exact ⟨List.mem_of_find?_eq_some h, by simpa using hident⟩
  · rintro ⟨hx, rfl⟩
    have hsome : (t.find? (ident x)).isSome := List.find?_isSome.mpr ⟨x, hx, by simp⟩
    obtain ⟨y, hy⟩ := Option.isSome_iff_exists.mp hsome
    have hident := List.find?_some hy
    rw [hy, eq_of_ident_eq (List.mem_of_find?_eq_some hy) hx (by simpa using hident)]

theorem find?_eq_none_iff : t.find? i = none ↔ i ∉ t.entries.map ident := by
  simp [find?]

theorem perm_insert (h : ident x ∉ t.entries.map ident) :
    (t.insert x).entries.Perm (x :: t.entries) := by
  rw [insert, dif_neg h]
  exact perm_link x t.entries

/-- Whether there is such an entry or not, and wherever it goes. -/
theorem perm_replace_assign : (t.replace x).entries.Perm (assign ident x t.entries) := by
  rw [replace]
  split
  · exact .refl _
  · next hsorted =>
      have hmem : ident x ∈ t.entries.map ident := by
        by_contra hnot
        have hassign : assign ident x t.entries = t.entries := by
          refine (List.map_congr_left fun y hy => if_neg fun heq => ?_).trans (List.map_id _)
          exact hnot (heq ▸ List.mem_map_of_mem hy)
        exact hsorted (hassign.symm ▸ t.sorted)
      exact (perm_link x _).trans (perm_assign hmem t.unique).symm

theorem perm_replace (h : ident x ∈ t.entries.map ident) :
    (t.replace x).entries.Perm (x :: others ident x t.entries) :=
  perm_replace_assign.trans (perm_assign h t.unique)

theorem perm_map_replace : ((t.replace x).entries.map ident).Perm (t.entries.map ident) := by
  have hassign := (perm_replace_assign (t := t) (x := x)).map ident
  rwa [map_assign] at hassign

theorem mem_insert (h : ident x ∉ t.entries.map ident) :
    y ∈ (t.insert x).entries ↔ y = x ∨ y ∈ t.entries := by
  rw [(perm_insert h).mem_iff, List.mem_cons]

theorem mem_replace (h : ident x ∈ t.entries.map ident) :
    y ∈ (t.replace x).entries ↔ y = x ∨ y ∈ t.entries ∧ ident y ≠ ident x := by
  rw [(perm_replace h).mem_iff, List.mem_cons]
  simp [others]

end Contents

end Index

end RaiBlocks.Foundation
