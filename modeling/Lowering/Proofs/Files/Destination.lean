import Lowering.Proofs.Files.Steps

/-! Files of modules.

Below a directory the file of a module is found by the pieces of its name, which are what stands
between its dots and slashes, the last of them with the extension (`destination_outputPath`). Names
with different pieces therefore have different files. Only a segment that begins with a slash leads
elsewhere, since it makes the path absolute (`isAbsolute_outputPath`). -/
namespace Lowering

namespace Name

variable (n : Name)

/-- Whether a segment of the name begins with a slash. -/
def isRooted : Bool := n.segments.any fun segment => (Path.mk segment).isAbsolute

/-- What stands between the dots and slashes of a name. -/
def pieces : List String := n.segments.flatMap fun segment => (Path.mk segment).steps

theorem splitDots_ne_nil (cs : List Char) : splitDots cs ≠ [] := by
  cases cs with
  | nil => exact List.cons_ne_nil _ _
  | cons c rest =>
    rw [splitDots]
    split
    · exact List.cons_ne_nil _ _
    · split <;> exact List.cons_ne_nil _ _

/-- There is no dot in a segment. -/
theorem dot_not_mem_segments {segment : String} (h : segment ∈ n.segments) : '.' ∉ segment.toList := by
  have hsplit (cs : List Char) : ∀ part ∈ splitDots cs, '.' ∉ part := by
    induction cs with
    | nil => simp [splitDots]
    | cons c rest ih =>
      rw [splitDots]
      split
      · exact List.forall_mem_cons.mpr ⟨List.not_mem_nil, ih⟩
      next hc =>
        cases hrest : splitDots rest with
        | nil => exact absurd hrest (splitDots_ne_nil rest)
        | cons first others =>
          rw [hrest] at ih
          obtain ⟨hfirst, hothers⟩ := List.forall_mem_cons.mp ih
          refine List.forall_mem_cons.mpr ⟨?_, hothers⟩
          rw [List.mem_cons, not_or]
          exact ⟨Ne.symm hc, hfirst⟩
  obtain ⟨part, hpart, rfl⟩ := List.mem_map.mp h
  rw [String.toList_ofList]
  exact hsplit _ part hpart

variable {n}

theorem isAbsolute_foldl_join (segments : List String) (p : Path) :
    (segments.foldl (fun (p : Path) segment => p.join ⟨segment⟩) p).isAbsolute =
      (p.isAbsolute || segments.any fun segment => (Path.mk segment).isAbsolute) := by
  induction segments generalizing p with
  | nil => rw [List.foldl_nil, List.any_nil, Bool.or_false]
  | cons segment rest ih => rw [List.foldl_cons, ih, Path.isAbsolute_join, List.any_cons, Bool.or_assoc]

theorem steps_foldl_join {segments : List String} (p : Path)
    (h : ∀ segment ∈ segments, (Path.mk segment).isAbsolute = false) :
    (segments.foldl (fun (p : Path) segment => p.join ⟨segment⟩) p).steps =
      p.steps ++ segments.flatMap fun segment => (Path.mk segment).steps := by
  induction segments generalizing p with
  | nil => rw [List.foldl_nil, List.flatMap_nil, List.append_nil]
  | cons segment rest ih =>
    obtain ⟨hsegment, hrest⟩ := List.forall_mem_cons.mp h
    rw [List.foldl_cons, ih _ hrest, Path.steps_join hsegment, List.flatMap_cons, List.append_assoc]

theorem dot_not_mem_foldl_join {segments : List String} {p : Path} (hp : '.' ∉ p.text.toList)
    (h : ∀ segment ∈ segments, '.' ∉ segment.toList) :
    '.' ∉ (segments.foldl (fun (p : Path) segment => p.join ⟨segment⟩) p).text.toList := by
  induction segments generalizing p with
  | nil => exact hp
  | cons segment rest ih =>
    obtain ⟨hsegment, hrest⟩ := List.forall_mem_cons.mp h
    refine ih (fun hmem => ?_) hrest
    rcases Path.mem_join hmem with hmem | hmem | hmem
    · exact hp hmem
    · cases hmem
    · exact hsegment hmem

/-- The path of a module is absolute if a segment of its name is. -/
theorem isAbsolute_outputPath (n : Name) : n.outputPath.isAbsolute = n.isRooted := by
  rw [outputPath, Path.isAbsolute_withExtension, isAbsolute_foldl_join]
  rfl

/-- The file of a module is found by the pieces of its name, and has an extension. -/
theorem steps_outputPath (h : n.isRooted = false) :
    n.outputPath.steps = n.pieces.modifyLast (· ++ ".js") := by
  have hsegments : ∀ segment ∈ n.segments, (Path.mk segment).isAbsolute = false := by
    simpa [isRooted] using h
  have hdots := dot_not_mem_foldl_join (p := ⟨""⟩) List.not_mem_nil fun _ => n.dot_not_mem_segments
  rw [outputPath, Path.steps_withExtension hdots (by decide), steps_foldl_join _ hsegments]
  have hextension : (fun step : String => step ++ "." ++ "js") = fun step => step ++ ".js" :=
    funext fun _ => String.append_assoc
  rw [hextension]
  rfl

/-- Different pieces make for different files. -/
theorem extended_injective : Function.Injective (List.modifyLast (· ++ ".js")) := by
  intro xs ys h
  rcases List.eq_nil_or_concat xs with rfl | ⟨front, last, rfl⟩ <;>
    rcases List.eq_nil_or_concat ys with rfl | ⟨front', last', rfl⟩ <;>
    simp only [List.concat_eq_append, List.modifyLast_concat] at h
  · rfl
  · exact absurd h.symm (List.append_ne_nil_of_right_ne_nil front' (List.cons_ne_nil _ _))
  · exact absurd h (List.append_ne_nil_of_right_ne_nil front (List.cons_ne_nil _ _))
  · obtain ⟨rfl, hlast⟩ := List.append_inj' h rfl
    have hchars := congrArg String.toList (List.cons.inj hlast).1
    rw [String.toList_append, String.toList_append] at hchars
    rw [String.toList_inj.mp (List.append_cancel_right hchars)]

theorem dot_not_mem_pieces {piece : String} (h : piece ∈ n.pieces) : '.' ∉ piece.toList := by
  obtain ⟨segment, hsegment, hpiece⟩ := List.mem_flatMap.mp h
  exact fun hdot => n.dot_not_mem_segments hsegment (Path.mem_of_mem_steps hpiece hdot)

/-- No step to the file of a module leads up. -/
theorem ne_up_of_mem_extended {step : String} (h : step ∈ n.pieces.modifyLast (· ++ ".js")) : step ≠ ".." := by
  rintro rfl
  rcases List.eq_nil_or_concat n.pieces with hpieces | ⟨front, last, hpieces⟩
  · rw [hpieces] at h
    cases h
  · rw [hpieces, List.concat_eq_append, List.modifyLast_concat] at h
    rcases List.mem_append.mp h with hfront | hlast
    · have hmem : ".." ∈ n.pieces := by
        rw [hpieces, List.concat_eq_append]
        exact List.mem_append_left _ hfront
      exact dot_not_mem_pieces hmem (by decide)
    · have hchars := congrArg String.toList (List.mem_singleton.mp hlast)
      have hj : 'j' ∈ "..".toList := by
        rw [hchars]
        simp
      exact absurd hj (by decide)

/-- Joined to a directory, the path of a module leads below it. -/
theorem destination_outputPath (h : n.isRooted = false) (working : Place) (outDir : Path) :
    (outDir.join n.outputPath).destination working =
      outDir.destination working ++ n.pieces.modifyLast (· ++ ".js") := by
  rw [Path.destination_join ((isAbsolute_outputPath n).trans h)]
  rw [Path.foldl_move_steps, steps_outputPath h]
  intro step hstep
  refine ⟨by simpa using (List.mem_filter.mp hstep).2, ?_⟩
  rw [steps_outputPath h] at hstep
  exact ne_up_of_mem_extended hstep

end Name

end Lowering
