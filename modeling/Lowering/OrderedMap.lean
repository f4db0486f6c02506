/-! Maps in the order of insertion.

The entries are listed in the order in which their keys came first; setting a key again
replaces its value and leaves it where it is. -/
namespace Lowering

/-- A map from texts, listed in the order of insertion. -/
structure OrderedMap (α : Type) where
  entries : List (String × α)
  distinct : (entries.map (·.1)).Nodup := by exact .nil

namespace OrderedMap

variable {α : Type}

def empty : OrderedMap α := ⟨[], .nil⟩

instance : Inhabited (OrderedMap α) := ⟨empty⟩

def keys (m : OrderedMap α) : List String := m.entries.map (·.1)

def isEmpty (m : OrderedMap α) : Bool := m.entries.isEmpty

def get? (m : OrderedMap α) (key : String) : Option α := m.entries.lookup key

/-- Replaces the value of a key, or puts the key at the end. -/
def put (key : String) (value : α) : List (String × α) → List (String × α)
  | [] => [(key, value)]
  | (k, v) :: rest => if k = key then (k, value) :: rest else (k, v) :: put key value rest

theorem keys_put (key : String) (value : α) (l : List (String × α)) :
    (put key value l).map (·.1) =
      if key ∈ l.map (·.1) then l.map (·.1) else l.map (·.1) ++ [key] := by
  induction l with
  | nil => rfl
  | cons e rest ih =>
    obtain ⟨k, v⟩ := e
    by_cases h : k = key
    · simp [put, h]
    · simp only [put, if_neg h, List.map_cons, ih, List.mem_cons, Ne.symm h, false_or]
      split <;> rfl

theorem put_of_not_mem {key : String} {value : α} {l : List (String × α)} (h : key ∉ l.map (·.1)) :
    put key value l = l ++ [(key, value)] := by
  induction l with
  | nil => rfl
  | cons e rest ih =>
    rw [List.map_cons, List.mem_cons, not_or] at h
    rw [put, if_neg (Ne.symm h.1), ih h.2]
    rfl

theorem distinct_put {key : String} {value : α} {l : List (String × α)}
    (h : (l.map (·.1)).Nodup) : ((put key value l).map (·.1)).Nodup := by
  rw [keys_put]
  split
  next => exact h
  next hk =>
    refine List.nodup_append.mpr ⟨h, by simp, fun a ha b hb => ?_⟩
    rintro rfl
    rw [List.mem_singleton] at hb
    exact hk (hb ▸ ha)

def insert (m : OrderedMap α) (key : String) (value : α) : OrderedMap α :=
  ⟨put key value m.entries, distinct_put m.distinct⟩

/-- The map of entries that come one after the other. -/
def ofList (entries : List (String × α)) : OrderedMap α :=
  entries.foldl (fun m e => m.insert e.1 e.2) empty

/-- A new key goes to the end; a known one stays where it is. -/
theorem keys_insert (m : OrderedMap α) (key : String) (value : α) :
    (m.insert key value).keys = if key ∈ m.keys then m.keys else m.keys ++ [key] :=
  keys_put key value m.entries

theorem lookup_cons_eq (k k' : String) (v : α) (l : List (String × α)) :
    ((k', v) :: l).lookup k = if k = k' then some v else l.lookup k := by
  rw [List.lookup_cons]
  by_cases h : k = k'
  · simp [h]
  · rw [beq_false_of_ne h, if_neg h]

theorem lookup_put (key k : String) (value : α) (l : List (String × α)) :
    (put key value l).lookup k = if k = key then some value else l.lookup k := by
  induction l with
  | nil => exact lookup_cons_eq k key value []
  | cons e rest ih =>
    obtain ⟨k', v⟩ := e
    rw [put]
    by_cases hkey : k' = key
    · rw [if_pos hkey, lookup_cons_eq, lookup_cons_eq, hkey]
      split <;> rfl
    · rw [if_neg hkey, lookup_cons_eq, lookup_cons_eq, ih]
      by_cases hk : k = k'
      · rw [if_pos hk, if_neg (hk ▸ hkey), if_pos hk]
      · rw [if_neg hk, if_neg hk]

theorem get?_insert (m : OrderedMap α) (key k : String) (value : α) :
    (m.insert key value).get? k = if k = key then some value else m.get? k :=
  lookup_put key k value m.entries

/-- In a map that is made from keys each key has the value that is made from it. -/
theorem get?_ofList_map (keys : List String) (value : String → α) (key : String) :
    (ofList (keys.map fun k => (k, value k))).get? key = if key ∈ keys then some (value key) else none := by
  have hfold : ∀ m : OrderedMap α,
      ((keys.map fun k => (k, value k)).foldl (fun m e => m.insert e.1 e.2) m).get? key =
        if key ∈ keys then some (value key) else m.get? key := by
    induction keys with
    | nil => exact fun m => rfl
    | cons k rest ih =>
      intro m
      rw [List.map_cons, List.foldl_cons, ih, get?_insert]
      by_cases hk : key = k
      · simp [hk]
      · simp [hk]
  exact hfold .empty

theorem entries_insert_of_not_mem {m : OrderedMap α} {key : String} {value : α} (h : key ∉ m.keys) :
    (m.insert key value).entries = m.entries ++ [(key, value)] :=
  put_of_not_mem h

theorem get?_eq_some {m : OrderedMap α} {key : String} {value : α} :
    m.get? key = some value ↔ (key, value) ∈ m.entries := by
  rw [get?, List.lookup_eq_some_iff]
  constructor
  · rintro ⟨before, after, hentries, -⟩
    rw [hentries]
    exact List.mem_append_right before (List.mem_cons_self ..)
  · intro h
    obtain ⟨before, after, hentries⟩ := List.append_of_mem h
    refine ⟨before, after, hentries, fun e he => ?_⟩
    have hdistinct := m.distinct
    rw [hentries, List.map_append, List.nodup_append] at hdistinct
    have hne := hdistinct.2.2 e.1 (List.mem_map_of_mem he) key (List.mem_cons_self ..)
    exact bne_iff_ne.mpr hne.symm

theorem entries_foldl_insert {es : List (String × α)} {m : OrderedMap α}
    (h : ((m.entries ++ es).map (·.1)).Nodup) :
    (es.foldl (fun m e => m.insert e.1 e.2) m).entries = m.entries ++ es := by
  induction es generalizing m with
  | nil => exact (List.append_nil _).symm
  | cons e rest ih =>
    have hkey : e.1 ∉ m.keys := by
      rw [List.map_append, List.nodup_append] at h
      exact fun hmem => h.2.2 e.1 hmem e.1 (List.mem_cons_self ..) rfl
    have hentries : (m.insert e.1 e.2).entries = m.entries ++ [e] := entries_insert_of_not_mem hkey
    rw [List.foldl_cons, ih, hentries, List.append_assoc]
    · rfl
    · rw [hentries, List.append_assoc]
      exact h

/-- Entries with different keys are those of their map. -/
theorem entries_ofList {es : List (String × α)} (h : (es.map (·.1)).Nodup) : (ofList es).entries = es :=
  entries_foldl_insert h

end OrderedMap

end Lowering
