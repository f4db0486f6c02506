import Lowering.Proofs.Symbol.Registering

/-! Declarations, index and ids in step.

Whatever is registered, one declaration after the other or as whole programs, a registry holds the
first declaration of each name in the order in which these came (`declarations_registerAll`), and
its index leads from each name to the position of its declaration. So an id that is given out once
is good for ever: the registry only grows, and the frozen table has the symbol of a declaration at
its position (`calls_in_step`). -/
namespace Lowering

/-- The first declaration of each name, in order. -/
def firstOfEach : List Declaration → List Declaration
  | [] => []
  | d :: rest => d :: (firstOfEach rest).filter (·.name ≠ d.name)

/-! ### Calls -/

/-- A call of a registry: a declaration to register, or a whole program. -/
inductive Registration where
  | declaration (d : Declaration)
  | program (p : Program)

namespace Registration

/-- What a call brings, in order. -/
def brought : Registration → List Declaration
  | .declaration d => [d]
  | .program p => p.declarations

/-- The registry after a call; a declaration that is refused leaves it as it is. -/
def apply (r : Registry) : Registration → Registry
  | .declaration d =>
    match r.register d with
    | .ok (r', _) => r'
    | .error _ => r
  | .program p => (r.registerProgram p).1

end Registration

namespace Registry

/-- The registry after calls, the first of which finds it empty. -/
def after (calls : List Registration) : Registry := calls.foldl Registration.apply .empty

variable {r : Registry} {d known : Declaration} {n : Name} {i : Nat}

theorem find?_add (h : r.find? d.name = none) :
    (r.add d h).find? n = if d.name = n then some d else r.find? n := by
  show (r.declarations ++ [d]).find? _ = _
  rw [List.find?_append]
  by_cases hn : d.name = n
  · subst hn
    rw [show r.declarations.find? (·.name = d.name) = none from h, if_pos rfl]
    simp
  · rw [if_neg hn, List.find?_singleton, if_neg (by simpa using hn), Option.or_none]
    rfl

/-- What is registered is the first declaration of each name that was not known before. -/
theorem declarations_registerAll (r : Registry) (ds : List Declaration) :
    (r.registerAll ds).1.declarations =
      r.declarations ++ (firstOfEach ds).filter fun d => (r.find? d.name).isNone := by
  induction ds generalizing r with
  | nil => simp [registerAll, firstOfEach]
  | cons d rest ih =>
    -- nothing but the first declaration with its name is left, and that only if the name is new
    have hrepeated {known : Declaration} (hknown : r.find? d.name = some known) :
        (firstOfEach (d :: rest)).filter (fun e => (r.find? e.name).isNone) =
          (firstOfEach rest).filter fun e => (r.find? e.name).isNone := by
      rw [firstOfEach, List.filter_cons_of_neg (by simp [hknown]), List.filter_filter]
      refine List.filter_congr fun e _ => ?_
      by_cases hname : e.name = d.name
      · simp [hname, hknown]
      · simp [hname]
    obtain ⟨hnew, hrest⟩ | ⟨known, hknown, -, hrest⟩ | ⟨known, hknown, -, hrest⟩ :=
      r.registerAll_cons_cases d rest
    · rw [hrest, ih, firstOfEach, List.filter_cons_of_pos (by simp [hnew]), List.filter_filter]
      show (r.declarations ++ [d]) ++ _ = _
      rw [List.append_assoc, List.singleton_append]
      congr 2
      refine List.filter_congr fun e _ => ?_
      rw [find?_add]
      by_cases hname : e.name = d.name
      · simp [hname]
      · simp [hname, Ne.symm hname]
    · rw [hrest, hrepeated hknown]
      exact ih r
    · rw [hrest, hrepeated hknown]
      exact ih r

theorem registerAll_append (r : Registry) (ds es : List Declaration) :
    (r.registerAll (ds ++ es)).1 = ((r.registerAll ds).1.registerAll es).1 := by
  induction ds generalizing r with
  | nil => rfl
  | cons d rest ih =>
    rw [List.cons_append, registerAll, registerAll]
    cases r.register d with
    | ok answer => exact ih answer.1
    | error e => exact ih r

theorem apply_eq (r : Registry) (c : Registration) : c.apply r = (r.registerAll c.brought).1 := by
  cases c with
  | program p => rfl
  | declaration d =>
    show _ = (r.registerAll [d]).1
    rw [Registration.apply, registerAll]
    cases r.register d <;> rfl

/-- Calls leave what is left by registering all that they bring. -/
theorem after_eq (calls : List Registration) :
    after calls = (empty.registerAll (calls.flatMap (·.brought))).1 := by
  have hfrom (r : Registry) : calls.foldl Registration.apply r =
      (r.registerAll (calls.flatMap (·.brought))).1 := by
    induction calls generalizing r with
    | nil => rfl
    | cons c rest ih => rw [List.foldl_cons, ih, apply_eq, List.flatMap_cons, registerAll_append]
  exact hfrom empty

/-! ### Answers -/

/-- What a registry answers to a declaration, and what becomes of it. -/
structure Answers (r : Registry) (d : Declaration) : Prop where
  /-- A new name gets the next id, and its declaration comes last. -/
  new : r.id? d.name = none → ∃ r', r.register d = .ok (r', r.size) ∧
    r'.declarations = r.declarations ++ [d] ∧ ∀ n, r'.id? n = if n = d.name then some r.size else r.id? n
  /-- A known name changes nothing: the same definition gets its id, any other is refused. -/
  known : ∀ i known, r.id? d.name = some i → r.declarations[i]? = some known →
    r.register d =
      if known.sameDefinition d then .ok (r, i)
      else .error (.duplicateSymbol d.name known.location d.location)

theorem id?_add (h : r.find? d.name = none) :
    (r.add d h).id? n = if n = d.name then some r.size else r.id? n := by
  have htext : n.text = d.name.text ↔ n = d.name := ⟨fun heq => congrArg Name.mk heq, congrArg Name.text⟩
  show (r.index.insert d.name.text r.size).get? n.text = _
  rw [OrderedMap.get?_insert, if_congr htext rfl rfl]
  rfl

theorem answers (r : Registry) (d : Declaration) : r.Answers d where
  new := by
    intro hnone
    have hfind := find?_eq_none_of_id? hnone
    obtain ⟨hnew, hregister⟩ | ⟨known, i, hknown, -⟩ | ⟨known, hknown, -⟩ := r.register_cases d
    · exact ⟨r.add d hnew, hregister, rfl, fun n => id?_add hnew⟩
    · rw [hfind] at hknown
      cases hknown
    · rw [hfind] at hknown
      cases hknown
  known := by
    intro i known hid hknown
    unfold register
    split
    next hnone =>
      rw [hid] at hnone
      cases hnone
    next j hj =>
      obtain rfl := Option.some.inj (hid.symm.trans hj)
      obtain ⟨hlt, rfl⟩ := List.getElem?_eq_some_iff.mp hknown
      rfl

/-- The registry holds what came, and its index and its declarations lead to each other. -/
structure Holds (r : Registry) (ds : List Declaration) : Prop where
  declarations : r.declarations = firstOfEach ds
  distinct : (r.declarations.map (·.name)).Nodup
  /-- What is declared at a position came before all others of its name. -/
  first : ∀ (i : Nat) (d : Declaration), r.declarations[i]? = some d →
    ds.find? (·.name = d.name) = some d
  ids : ∀ n i, r.id? n = some i ↔ ∃ d, r.declarations[i]? = some d ∧ d.name = n

theorem holds_registerAll (ds : List Declaration) : (empty.registerAll ds).1.Holds ds where
  declarations := by
    rw [declarations_registerAll]
    exact List.filter_eq_self.mpr fun d _ => rfl
  distinct := (empty.registerAll ds).1.distinct
  first := by
    intro i d hd
    have hfind := find?_registerAll empty ds d.name
    rw [find?_eq_some.mpr ⟨List.mem_of_getElem? hd, rfl⟩] at hfind
    exact hfind.symm
  ids := fun n i => id?_eq_some_iff

end Registry

/-! ### Frozen tables -/

namespace SymbolTable

variable {t : SymbolTable}

theorem get?_bySimple (symbols : List Symbol) (groups : OrderedMap (List Nat)) (simple : String) :
    ((symbols.foldl addSimple groups).get? simple).getD [] =
      (groups.get? simple).getD [] ++ (symbols.filter (·.name.simple = simple)).map (·.id) := by
  induction symbols generalizing groups with
  | nil => simp
  | cons s rest ih =>
    rw [List.foldl_cons, ih, addSimple, OrderedMap.get?_insert]
    by_cases hs : s.name.simple = simple
    · subst hs
      simp
    · rw [if_neg (Ne.symm hs), List.filter_cons_of_neg (by simpa using hs)]

theorem named_eq (t : SymbolTable) (simple : String) :
    t.named simple = (t.symbols.filter (·.name.simple = simple)).map (·.id) := by
  rw [named, bySimple, get?_bySimple]
  rfl

/-- Symbols, ids and names lead to each other. -/
structure InStep (t : SymbolTable) : Prop where
  /-- The id of a symbol is its position. -/
  ids : ∀ (i : Nat) (s : Symbol), t.symbols[i]? = some s → s.id = i
  /-- A name has the id of the symbol with this name, and no other. -/
  lookup : ∀ n i, t.id? n = some i ↔ ∃ s, t.symbols[i]? = some s ∧ s.name = n
  /-- Under a simple name there are the ids of all symbols with it, in order. -/
  named : ∀ simple, t.named simple =
    (List.range t.symbols.length).filter fun i => t.symbols[i]?.any (·.name.simple = simple)

/-- Numbers that are positions pick out by position what a test picks out. -/
theorem map_filter_eq {α : Type} {l : List α} {f : α → Nat} (hf : ∀ i a, l[i]? = some a → f a = i)
    (p : α → Bool) : (l.filter p).map f = (List.range l.length).filter fun i => l[i]?.any p := by
  have hrange : l.map f = List.range l.length := by
    refine List.ext_getElem (by simp) fun i hi _ => ?_
    rw [List.getElem_map, List.getElem_range]
    exact hf i _ (List.getElem?_eq_getElem (by simpa using hi))
  rw [← hrange, List.filter_map]
  congr 1
  refine List.filter_congr fun a ha => ?_
  obtain ⟨i, hi⟩ := List.getElem?_of_mem ha
  rw [Function.comp_apply, hf i a hi, hi]
  rfl

end SymbolTable

namespace Registry

variable {r : Registry} {style : NameStyle} {t : SymbolTable} {n : Name} {i : Nat} {s : Symbol}

/-- The symbols of a table stand where the declarations stand in the registry. -/
theorem symbols_of_freeze (h : r.freeze style = .ok t) :
    t.symbols[i]? = some s ↔ ∃ d, r.declarations[i]? = some d ∧ r.symbol style d i = s := by
  rw [eq_of_freeze h]
  simp

theorem id?_of_freeze (h : r.freeze style = .ok t) (n : Name) : t.id? n = r.id? n := by
  refine Option.ext fun i => ?_
  rw [id?_eq_some_iff, SymbolTable.id?, Option.map_eq_some_iff]
  constructor
  · rintro ⟨s, hs, rfl⟩
    obtain ⟨d, i, hd, hname, rfl⟩ := (find?_of_freeze h).mp hs
    exact ⟨d, hd, hname⟩
  · rintro ⟨d, hd, hname⟩
    exact ⟨r.symbol style d i, (find?_of_freeze h).mpr ⟨d, i, hd, hname, rfl⟩, rfl⟩

theorem inStep_of_freeze (h : r.freeze style = .ok t) : t.InStep := by
  have hids (i : Nat) (s : Symbol) (hs : t.symbols[i]? = some s) : s.id = i := by
    obtain ⟨d, -, rfl⟩ := (symbols_of_freeze h).mp hs
    rfl
  refine ⟨hids, fun n i => ?_, fun simple => ?_⟩
  · rw [id?_of_freeze h, id?_eq_some_iff]
    constructor
    · rintro ⟨d, hd, hname⟩
      exact ⟨r.symbol style d i, (symbols_of_freeze h).mpr ⟨d, hd, rfl⟩, hname⟩
    · rintro ⟨s, hs, rfl⟩
      obtain ⟨d, hd, rfl⟩ := (symbols_of_freeze h).mp hs
      exact ⟨d, hd, rfl⟩
  · rw [SymbolTable.named_eq, SymbolTable.map_filter_eq hids]

end Registry

/-- **After any calls a registry holds the first declaration of each name that came, in order, and
the id of a name is the position of its declaration. A declaration with a new name comes last and
gets the next id; with a known name it changes nothing, and gets the id of the definition that it
repeats or is refused for the one that came first. The table that the registry freezes into has
the same ids.** -/
theorem calls_in_step (calls : List Registration) :
    (Registry.after calls).Holds (calls.flatMap (·.brought)) ∧
      (∀ d, (Registry.after calls).Answers d) ∧
      ∀ style t, (Registry.after calls).freeze style = .ok t →
        t.symbols.map (·.declaration) = (Registry.after calls).declarations ∧
          (∀ n, t.id? n = (Registry.after calls).id? n) ∧ t.InStep := by
  refine ⟨?_, Registry.answers _, fun style t ht => ⟨?_, Registry.id?_of_freeze ht, Registry.inStep_of_freeze ht⟩⟩
  · rw [Registry.after_eq]
    exact Registry.holds_registerAll _
  · rw [Registry.eq_of_freeze ht, List.map_map]
    exact List.zipIdx_map_fst ..

/-- A base that is declared twice, the second time inside of a program, keeps its id. -/
example : (Registry.after [.declaration { name := ⟨"ui.View"⟩ }, .declaration { name := ⟨"lib.View"⟩ },
    .program { foreign := [{ name := ⟨"ui.View"⟩ }, { name := ⟨"app.Main"⟩ }] }]).index.entries =
    [("ui.View", 0), ("lib.View", 1), ("app.Main", 2)] := rfl

end Lowering
