/-!
# Tables

A `Table κ ν` holds values by key, in the order in which the keys first came. Writing a key a
second time replaces its value and keeps its place.

`get?_insert` and `keys_insert` say what a write does to what is read and to the keys.
-/

namespace EarliestFinish

/-- Values by key, in the order in which the keys came. -/
structure Table (κ ν : Type) where
  entries : List (κ × ν) := []

namespace Table

variable {κ ν : Type} [DecidableEq κ]

/-- The keys, in the order in which they came. -/
def keys (t : Table κ ν) : List κ := t.entries.map Prod.fst

/-- The values, in the order in which their keys came. -/
def values (t : Table κ ν) : List ν := t.entries.map Prod.snd

/-- The first value written against a key in a list of pairs. -/
def lookup (k : κ) : List (κ × ν) → Option ν
  | [] => none
  | (l, v) :: rest => if l = k then some v else lookup k rest

/-- The value of a key. -/
def get? (t : Table κ ν) (k : κ) : Option ν := lookup k t.entries

/-- Replaces the value of a key in a list of pairs, or adds the pair behind the last. -/
def write (k : κ) (v : ν) : List (κ × ν) → List (κ × ν)
  | [] => [(k, v)]
  | (l, w) :: rest => if l = k then (l, v) :: rest else (l, w) :: write k v rest

/-- Sets the value of a key; a new key comes last. -/
def insert (t : Table κ ν) (k : κ) (v : ν) : Table κ ν := ⟨write k v t.entries⟩

/-- The table of some pairs; of two pairs with one key, the later gives the value. -/
def ofList (pairs : List (κ × ν)) : Table κ ν :=
  pairs.foldl (fun t p => t.insert p.1 p.2) ⟨[]⟩

/-- The table without some keys. -/
def without (t : Table κ ν) (ks : List κ) : Table κ ν :=
  ⟨t.entries.filter fun p => p.1 ∉ ks⟩

theorem lookup_write (k l : κ) (v : ν) (ps : List (κ × ν)) :
    lookup l (write k v ps) = if k = l then some v else lookup l ps := by
  induction ps with
  | nil => rfl
  | cons p ps ih => grind [write, lookup]

/-- A write is seen under its key and nowhere else. -/
theorem get?_insert (t : Table κ ν) (k l : κ) (v : ν) :
    (t.insert k v).get? l = if k = l then some v else t.get? l :=
  lookup_write k l v t.entries

theorem map_fst_write (k : κ) (v : ν) (ps : List (κ × ν)) :
    (write k v ps).map Prod.fst =
      if k ∈ ps.map Prod.fst then ps.map Prod.fst else ps.map Prod.fst ++ [k] := by
  induction ps with
  | nil => simp [write]
  | cons p ps ih => grind [write]

/-- A key that is there keeps its place, and a new one comes last. -/
theorem keys_insert (t : Table κ ν) (k : κ) (v : ν) :
    (t.insert k v).keys = if k ∈ t.keys then t.keys else t.keys ++ [k] :=
  map_fst_write k v t.entries

theorem mem_write {e : κ × ν} {k : κ} {v : ν} {ps : List (κ × ν)} (h : e ∈ write k v ps) :
    e = (k, v) ∨ e ∈ ps := by
  induction ps with
  | nil => simpa [write] using h
  | cons p ps ih => grind [write]

/-- What is in a table after a write was written or was there. -/
theorem mem_entries_insert {t : Table κ ν} {e : κ × ν} {k : κ} {v : ν}
    (h : e ∈ (t.insert k v).entries) : e = (k, v) ∨ e ∈ t.entries :=
  mem_write h

theorem mem_of_lookup {k : κ} {v : ν} {ps : List (κ × ν)} (h : lookup k ps = some v) :
    (k, v) ∈ ps := by
  induction ps with
  | nil => cases h
  | cons p ps ih => grind [lookup]

theorem mem_entries_of_get? {t : Table κ ν} {k : κ} {v : ν} (h : t.get? k = some v) :
    (k, v) ∈ t.entries :=
  mem_of_lookup h

theorem lookup_append (k : κ) (ps qs : List (κ × ν)) :
    lookup k (ps ++ qs) = (lookup k ps).or (lookup k qs) := by
  induction ps with
  | nil => rfl
  | cons p ps ih => grind [lookup]

theorem exists_lookup {k : κ} {ps : List (κ × ν)} (h : k ∈ ps.map Prod.fst) :
    ∃ v, lookup k ps = some v := by
  induction ps with
  | nil => cases h
  | cons p ps ih =>
    by_cases hp : p.1 = k
    · exact ⟨p.2, if_pos hp⟩
    · obtain ⟨v, hv⟩ := ih ((List.mem_cons.1 h).resolve_left (Ne.symm hp))
      exact ⟨v, (if_neg hp).trans hv⟩

/-- Every key has a value. -/
theorem exists_get? {t : Table κ ν} {k : κ} (h : k ∈ t.keys) : ∃ v, t.get? k = some v :=
  exists_lookup h

theorem lookup_of_mem {k : κ} {v : ν} {ps : List (κ × ν)} (hn : (ps.map Prod.fst).Nodup)
    (h : (k, v) ∈ ps) : lookup k ps = some v := by
  induction ps with
  | nil => cases h
  | cons p ps ih => grind [lookup]

/-- If no key comes twice, every pair is seen. -/
theorem get?_of_mem {t : Table κ ν} {k : κ} {v : ν} (hn : t.keys.Nodup)
    (h : (k, v) ∈ t.entries) : t.get? k = some v :=
  lookup_of_mem hn h

end Table

end EarliestFinish
