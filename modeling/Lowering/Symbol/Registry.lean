import Lowering.Error
import Lowering.OrderedMap
import Lowering.Source.Program

/-! Registering declarations.

A registry holds declarations in the order in which they came, no name twice; the
position of a declaration is its id, which an index keeps under the name. Registering the
same definition again gives the id it has, wherever it stands in the source; another
definition under a known name is refused. -/
namespace Lowering

/-- The entries of an index, which says where each name is declared. -/
def positions (ds : List Declaration) : List (String × Nat) :=
  ds.zipIdx.map fun (d, i) => (d.name.text, i)

/-- The declarations that are known so far. -/
structure Registry where
  declarations : List Declaration
  /-- The id of each name. -/
  index : OrderedMap Nat
  distinct : (declarations.map (·.name)).Nodup
  indexed : index.entries = positions declarations

namespace Registry

def empty : Registry := ⟨[], .empty, .nil, rfl⟩

instance : Inhabited Registry := ⟨empty⟩

def size (r : Registry) : Nat := r.declarations.length

/-- The id of a name. -/
def id? (r : Registry) (n : Name) : Option Nat := r.index.get? n.text

def find? (r : Registry) (n : Name) : Option Declaration :=
  r.declarations.find? (·.name = n)

theorem find?_eq_none {r : Registry} {n : Name} (h : r.find? n = none) :
    n ∉ r.declarations.map (·.name) := by
  simpa [find?] using h

/-! ### The index -/

theorem lookup_positions (ds : List Declaration) (n : Name) (k : Nat) :
    ((ds.zipIdx k).map fun (d, i) => (d.name.text, i)).lookup n.text =
      (ds.findIdx? (·.name = n)).map (· + k) := by
  induction ds generalizing k with
  | nil => rfl
  | cons d rest ih =>
    rw [List.zipIdx_cons, List.map_cons, List.lookup_cons, List.findIdx?_cons]
    by_cases h : d.name = n
    · subst h
      simp
    · have htext : (n.text == d.name.text) = false :=
        beq_false_of_ne fun heq => h (congrArg Name.mk heq.symm)
      rw [htext, ih]
      simp [h, Function.comp_def, Nat.add_assoc, Nat.add_comm 1]

/-- The index leads to the declaration with the name. -/
theorem id?_eq (r : Registry) (n : Name) : r.id? n = r.declarations.findIdx? (·.name = n) := by
  rw [id?, OrderedMap.get?, r.indexed]
  have hlookup := lookup_positions r.declarations n 0
  simpa [positions] using hlookup

theorem lt_of_id? {r : Registry} {n : Name} {i : Nat} (h : r.id? n = some i) : i < r.size := by
  rw [id?_eq] at h
  exact (List.findIdx?_eq_some_iff_getElem.mp h).1

theorem find?_eq_none_of_id? {r : Registry} {n : Name} (h : r.id? n = none) : r.find? n = none := by
  rw [id?_eq, List.findIdx?_eq_none_iff] at h
  exact List.find?_eq_none.mpr fun d hd => by simpa using h d hd

/-- Positions before a new declaration stay, and it gets the next one. -/
theorem indexed_append {index : OrderedMap Nat} {ds : List Declaration} {d : Declaration}
    (h : index.entries = positions ds) (hd : d.name ∉ ds.map (·.name)) :
    (index.insert d.name.text ds.length).entries = positions (ds ++ [d]) := by
  have hkey : d.name.text ∉ index.entries.map (·.1) := by
    rw [h, positions, List.map_map]
    intro hmem
    obtain ⟨⟨e, i⟩, he, htext⟩ := List.mem_map.mp hmem
    exact hd (List.mem_map.mpr ⟨e, List.fst_mem_of_mem_zipIdx he, congrArg Name.mk htext⟩)
  rw [OrderedMap.entries_insert_of_not_mem hkey, h]
  simp [positions, List.zipIdx_append]

theorem distinct_append {ds : List Declaration} {d : Declaration}
    (h : (ds.map (·.name)).Nodup) (hd : d.name ∉ ds.map (·.name)) :
    ((ds ++ [d]).map (·.name)).Nodup := by
  rw [List.map_append, List.nodup_append]
  exact ⟨h, by simp, fun a ha b hb => by
    rintro rfl
    rw [List.map_singleton, List.mem_singleton] at hb
    exact hd (hb ▸ ha)⟩

/-! ### Registering -/

/-- Puts a declaration with a new name at the end, and its position into the index. -/
def add (r : Registry) (d : Declaration) (h : r.find? d.name = none) : Registry where
  declarations := r.declarations ++ [d]
  index := r.index.insert d.name.text r.size
  distinct := distinct_append r.distinct (find?_eq_none h)
  indexed := indexed_append r.indexed (find?_eq_none h)

/-- Registers a declaration and gives its id. -/
def register (r : Registry) (d : Declaration) : Except Error (Registry × Nat) :=
  match h : r.id? d.name with
  | none => .ok (r.add d (find?_eq_none_of_id? h), r.size)
  | some id =>
    let known := r.declarations.get ⟨id, lt_of_id? h⟩
    if known.sameDefinition d then .ok (r, id)
    else .error (.duplicateSymbol d.name known.location d.location)

/-- Registers declarations one after the other; those that are refused are left out and
reported. -/
def registerAll (r : Registry) : List Declaration → Registry × List Error
  | [] => (r, [])
  | d :: rest =>
    match r.register d with
    | .ok (r, _) => r.registerAll rest
    | .error e =>
      let (r, errors) := r.registerAll rest
      (r, e :: errors)

/-- Registers every declaration of a program. -/
def registerProgram (r : Registry) (p : Program) : Registry × List Error :=
  r.registerAll p.declarations

end Registry

end Lowering
