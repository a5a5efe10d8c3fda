import RpcConsole.Text.Pieces

namespace RpcConsole.Text

theorem mem_splitOn {mark : Char} {cs l : List Char} (h : l ∈ cs.splitOn mark) :
    mark ∉ l ∧ ∀ c ∈ l, c ∈ cs := by
  induction cs generalizing l with
  | nil =>
    rw [List.splitOn_nil, List.mem_singleton] at h
    simp [h]
  | cons x cs ih =>
    obtain ⟨first, rest, hsplit⟩ := List.exists_cons_of_ne_nil (List.splitOn_ne_nil mark cs)
    rw [hsplit] at ih
    rw [List.splitOn_cons_eq_if_modifyHead, hsplit] at h
    split at h
    · rcases List.mem_cons.mp h with rfl | h
      · simp
      · exact ⟨(ih h).1, fun c hc => List.mem_cons_of_mem _ ((ih h).2 c hc)⟩
    · rename_i hx
      rw [List.modifyHead_cons] at h
      rcases List.mem_cons.mp h with rfl | h
      · obtain ⟨hm, hc⟩ := ih (List.mem_cons_self ..)
        refine ⟨?_, List.forall_mem_cons.mpr ⟨by simp, fun c h => by simp [hc c h]⟩⟩
        rw [List.mem_cons, not_or]
        exact ⟨fun he => hx (by simp [he]), hm⟩
      · obtain ⟨hm, hc⟩ := ih (List.mem_cons_of_mem _ h)
        exact ⟨hm, fun c h => List.mem_cons_of_mem _ (hc c h)⟩

theorem exists_mem_splitOn {mark c : Char} {cs : List Char} (hc : c ∈ cs) (hne : c ≠ mark) :
    ∃ l ∈ cs.splitOn mark, c ∈ l := by
  induction cs with
  | nil => cases hc
  | cons x cs ih =>
    obtain ⟨first, rest, hsplit⟩ := List.exists_cons_of_ne_nil (List.splitOn_ne_nil mark cs)
    rw [hsplit] at ih
    rw [List.splitOn_cons_eq_if_modifyHead, hsplit]
    split
    · rename_i hx
      rcases List.mem_cons.mp hc with rfl | hc
      · exact absurd (beq_iff_eq.mp hx) hne
      · obtain ⟨l, hl, h⟩ := ih hc
        exact ⟨l, List.mem_cons_of_mem _ hl, h⟩
    · rw [List.modifyHead_cons]
      rcases List.mem_cons.mp hc with rfl | hc
      · exact ⟨c :: first, List.mem_cons_self .., List.mem_cons_self ..⟩
      · obtain ⟨l, hl, h⟩ := ih hc
        rcases List.mem_cons.mp hl with rfl | hl
        · exact ⟨x :: l, List.mem_cons_self .., List.mem_cons_of_mem _ h⟩
        · exact ⟨l, List.mem_cons_of_mem _ hl, h⟩

variable {mark c : Char} {text piece : String} {ps : List String}

theorem mem_pieces (h : piece ∈ pieces mark text) :
    mark ∉ piece.toList ∧ ∀ c ∈ piece.toList, c ∈ text.toList := by
  obtain ⟨l, hl, rfl⟩ := List.mem_map.mp h
  rw [String.toList_ofList]
  exact mem_splitOn hl

theorem exists_mem_pieces (hc : c ∈ text.toList) (hne : c ≠ mark) :
    ∃ piece ∈ pieces mark text, c ∈ piece.toList := by
  obtain ⟨l, hl, h⟩ := exists_mem_splitOn hc hne
  exact ⟨String.ofList l, List.mem_map.mpr ⟨l, hl, rfl⟩, by rwa [String.toList_ofList]⟩

/-- A mark at the front has nothing before it. -/
theorem pieces_mark {rest : List Char} (h : text.toList = mark :: rest) :
    pieces mark text = "" :: pieces mark (String.ofList rest) := by
  rw [pieces, pieces, h, String.toList_ofList, ← List.nil_append (mark :: rest),
    List.splitOn_append_cons_self, List.splitOn_nil]
  rfl

/-- Pieces without the mark are told apart again. -/
theorem pieces_intercalate {sep : String} (hs : sep.toList = [mark]) (hne : ps ≠ [])
    (h : ∀ p ∈ ps, mark ∉ p.toList) : pieces mark (sep.intercalate ps) = ps := by
  have hsplit : (sep.intercalate ps).toList.splitOn mark = ps.map String.toList := by
    rw [String.toList_intercalate, hs]
    refine List.splitOn_intercalate mark (fun l hl => ?_) (by simpa using hne)
    obtain ⟨x, hx, rfl⟩ := List.mem_map.mp hl
    exact h x hx
  rw [pieces, hsplit, List.map_map]
  simp [Function.comp_def]

end RpcConsole.Text
