namespace ConstantFlow

variable {κ ν : Type} [DecidableEq κ]

def readAt (k : κ) : List (κ × ν) → Option ν
  | [] => none
  | e :: rest => if e.1 = k then some e.2 else readAt k rest

/-- Writes `v` at `k`: in place if `k` is present, else at the end. -/
def writeAt (k : κ) (v : ν) : List (κ × ν) → List (κ × ν)
  | [] => [(k, v)]
  | e :: rest => if e.1 = k then (k, v) :: rest else e :: writeAt k v rest

theorem readAt_writeAt (k j : κ) (v : ν) (l : List (κ × ν)) :
    readAt j (writeAt k v l) = if k = j then some v else readAt j l := by
  induction l with
  | nil => simp [readAt, writeAt]
  | cons e rest ih =>
    by_cases h : e.1 = k
    · by_cases hj : k = j <;> simp [readAt, writeAt, h, hj]
    · by_cases hj : e.1 = j
      · subst hj; simp [readAt, writeAt, h, Ne.symm h]
      · simp [readAt, writeAt, h, hj, ih]

theorem map_fst_writeAt (k : κ) (v : ν) (l : List (κ × ν)) :
    (writeAt k v l).map Prod.fst =
      if k ∈ l.map Prod.fst then l.map Prod.fst else l.map Prod.fst ++ [k] := by
  induction l with
  | nil => simp [writeAt]
  | cons e rest ih =>
    by_cases h : e.1 = k
    · simp [writeAt, h]
    · simp only [writeAt, h, if_false, List.map_cons, ih, List.mem_cons, Ne.symm h, false_or]
      split <;> simp

theorem nodup_writeAt (k : κ) (v : ν) {l : List (κ × ν)} (h : (l.map Prod.fst).Nodup) :
    ((writeAt k v l).map Prod.fst).Nodup := by
  rw [map_fst_writeAt]
  split
  · exact h
  · next hk =>
    refine List.nodup_append.2 ⟨h, by simp, fun a ha b hb hab ↦ hk ?_⟩
    rwa [← List.mem_singleton.1 hb, ← hab]

theorem writeAt_of_readAt {k : κ} {v : ν} {l : List (κ × ν)} (h : readAt k l = some v) : writeAt k v l = l := by
  induction l with
  | nil => cases h
  | cons e rest ih =>
    rw [readAt] at h
    rw [writeAt]
    by_cases he : e.1 = k
    · rw [if_pos he] at h ⊢
      cases h
      rw [← he]
    · rw [if_neg he] at h ⊢
      rw [ih h]

theorem writeAt_writeAt (k : κ) (v w : ν) (l : List (κ × ν)) : writeAt k w (writeAt k v l) = writeAt k w l := by
  induction l with
  | nil => simp [writeAt]
  | cons e rest ih =>
    by_cases h : e.1 = k
    · simp [writeAt, h]
    · simp [writeAt, h, ih]

theorem readAt_eq_none {k : κ} {l : List (κ × ν)} : readAt k l = none ↔ k ∉ l.map Prod.fst := by
  induction l with
  | nil => simp [readAt]
  | cons e l ih =>
    by_cases h : e.1 = k
    · simp [readAt, h]
    · simp [readAt, h, ih, Ne.symm h]

theorem readAt_eq_some {k : κ} {v : ν} {l : List (κ × ν)} (hl : (l.map Prod.fst).Nodup) :
    readAt k l = some v ↔ (k, v) ∈ l := by
  induction l with
  | nil => simp [readAt]
  | cons e l ih =>
    obtain ⟨j, w⟩ := e
    simp only [List.map_cons, List.nodup_cons] at hl
    by_cases h : j = k
    · subst h
      have hj : (j, v) ∉ l := fun hm ↦ hl.1 (List.mem_map_of_mem hm)
      simp [readAt, hj, eq_comm]
    · simp [readAt, h, ih hl.2, Ne.symm h]

/-- The keys stand in the order in which they first came, and none is ever taken out. -/
structure Table (κ ν : Type) where
  entries : List (κ × ν)
  distinct : (entries.map Prod.fst).Nodup

namespace Table

def empty : Table κ ν := ⟨[], .nil⟩

def keys (t : Table κ ν) : List κ := t.entries.map Prod.fst

def size (t : Table κ ν) : Nat := t.entries.length

def get? (t : Table κ ν) (k : κ) : Option ν := readAt k t.entries

def insert (t : Table κ ν) (k : κ) (v : ν) : Table κ ν :=
  ⟨writeAt k v t.entries, nodup_writeAt k v t.distinct⟩

def ofList (l : List (κ × ν)) : Table κ ν := l.foldl (fun t e ↦ t.insert e.1 e.2) empty

theorem get?_insert (t : Table κ ν) (k j : κ) (v : ν) :
    (t.insert k v).get? j = if k = j then some v else t.get? j := readAt_writeAt k j v t.entries

theorem insert_of_get? {t : Table κ ν} {k : κ} {v : ν} (h : t.get? k = some v) : t.insert k v = t := by
  obtain ⟨l, hl⟩ := t
  have he : writeAt k v l = l := writeAt_of_readAt h
  simp only [insert, he]

theorem insert_insert (t : Table κ ν) (k : κ) (v w : ν) : (t.insert k v).insert k w = t.insert k w := by
  simp only [insert, writeAt_writeAt]

theorem keys_insert (t : Table κ ν) (k : κ) (v : ν) :
    (t.insert k v).keys = if k ∈ t.keys then t.keys else t.keys ++ [k] :=
  map_fst_writeAt k v t.entries

end Table

end ConstantFlow
