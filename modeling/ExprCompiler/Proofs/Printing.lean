import ExprCompiler.Proofs.Sealing

/-!
# What the text of a module tells

Names stand between quotes, and no quote is left in them; so the text of a
declaration tells the names of its parameters, and the text of a module tells
the texts of its functions.
-/

namespace ExprCompiler.IR

theorem escapeNameChar_append_inj {c d : Char} {xs ys : List Char}
    (h : escapeNameChar c ++ xs = escapeNameChar d ++ ys) : c = d ∧ xs = ys := by
  unfold escapeNameChar at h
  split at h <;> split at h <;> grind

theorem quote_not_mem_escapeNameChar (c : Char) : '"' ∉ escapeNameChar c := by
  unfold escapeNameChar
  split
  · simp
  · split
    · simp
    · simpa using Ne.symm ‹_›

theorem escaped_append_inj {cs ds xs ys : List Char}
    (h : cs.flatMap escapeNameChar ++ '"' :: xs = ds.flatMap escapeNameChar ++ '"' :: ys) :
    cs = ds ∧ xs = ys := by
  have hhead {c : Char} {cs zs ws : List Char} :
      escapeNameChar c ++ (cs.flatMap escapeNameChar ++ zs) ≠ '"' :: ws := by
    intro he
    have hc := quote_not_mem_escapeNameChar c
    unfold escapeNameChar at he hc
    split at he <;> (try split at he) <;> simp_all
  induction cs generalizing ds with
  | nil =>
    cases ds with
    | nil => exact ⟨rfl, by simpa using h⟩
    | cons d ds =>
      rw [List.flatMap_cons, List.append_assoc] at h
      exact absurd h.symm hhead
  | cons c cs ih =>
    cases ds with
    | nil =>
      rw [List.flatMap_cons, List.append_assoc] at h
      exact absurd h hhead
    | cons d ds =>
      simp only [List.flatMap_cons, List.append_assoc] at h
      obtain ⟨rfl, hrest⟩ := escapeNameChar_append_inj h
      obtain ⟨rfl, hxs⟩ := ih hrest
      exact ⟨rfl, hxs⟩

theorem localReference_append_inj {n k s t : String}
    (h : localReference n ++ s = localReference k ++ t) : n = k ∧ s = t := by
  have hl := congrArg String.toList h
  simp only [localReference, escapeName, String.toList_append, String.toList_ofList,
    List.append_assoc, List.append_cancel_left_eq] at hl
  obtain ⟨hn, hs⟩ := escaped_append_inj hl
  exact ⟨String.toList_inj.1 hn, String.toList_inj.1 hs⟩

theorem paramsText_inj {ps qs : List String} (hlen : ps.length = qs.length)
    (h : ", ".intercalate (ps.map fun p => "i32 " ++ localReference p) =
      ", ".intercalate (qs.map fun p => "i32 " ++ localReference p)) : ps = qs := by
  induction ps generalizing qs with
  | nil => exact (List.length_eq_zero_iff.1 hlen.symm).symm
  | cons p ps ih =>
    cases qs with
    | nil => cases hlen
    | cons q qs =>
      have htail : ps.length = qs.length := Nat.succ.inj hlen
      by_cases hp : ps = []
      · subst hp
        have hq : qs = [] := List.length_eq_zero_iff.1 htail.symm
        subst hq
        simp only [List.map_cons, List.map_nil, String.intercalate_singleton,
          String.append_right_inj] at h
        have he := localReference_append_inj (congrArg (· ++ "") h)
        rw [he.1]
      · have hq : qs ≠ [] := by
          rintro rfl
          exact hp (List.length_eq_zero_iff.1 htail)
        simp only [List.map_cons] at h
        rw [String.intercalate_cons_of_ne_nil (by simpa using hp),
          String.intercalate_cons_of_ne_nil (by simpa using hq)] at h
        simp only [String.append_assoc, String.append_right_inj] at h
        obtain ⟨rfl, hrest⟩ := localReference_append_inj h
        rw [ih htail ((String.append_right_inj _).1 hrest)]

theorem intercalate_cancel {sep x y : String} (l r : List String)
    (h : sep.intercalate (l ++ x :: r) = sep.intercalate (l ++ y :: r)) : x = y := by
  induction l with
  | nil =>
    by_cases hr : r = []
    · subst hr
      simpa using h
    · simp only [List.nil_append, String.intercalate_cons_of_ne_nil hr] at h
      have hl := congrArg String.toList h
      simp only [String.toList_append, List.append_assoc] at hl
      exact String.toList_inj.1 (List.append_cancel_right hl)
  | cons z l ih =>
    rw [List.cons_append, List.cons_append, String.intercalate_cons_of_ne_nil (by simp),
      String.intercalate_cons_of_ne_nil (by simp)] at h
    exact ih ((String.append_right_inj _).1 h)

namespace Module

variable {m m' : Module} {f : FunctionId}

theorem params_eq_of_functionText_eq (hb : (m.get f).hasBody = false)
    (hb' : (m'.get f).hasBody = false) (hname : (m'.get f).name = (m.get f).name)
    (harity : (m'.get f).arity = (m.get f).arity) (h : m'.functionText f = m.functionText f) :
    (m'.get f).params = (m.get f).params := by
  simp only [functionText, hb, hb', Bool.false_eq_true, if_false, headerText, hname,
    String.append_assoc, String.append_right_inj] at h
  have hl := congrArg String.toList h
  simp only [String.toList_append] at hl
  exact paramsText_inj harity (String.toList_inj.1 (List.append_cancel_right hl))

theorem functionText_eq_of_textOf_eq {fs : List FunctionId} (hf : f ∈ fs) (hd : fs.Nodup)
    (hname : m'.name = m.name) (htriple : m'.triple = m.triple)
    (hrest : ∀ g ∈ fs, g ≠ f → m'.functionText g = m.functionText g)
    (h : m'.textOf fs = m.textOf fs) : m'.functionText f = m.functionText f := by
  obtain ⟨l, r, rfl⟩ := List.append_of_mem hf
  have hleft : l.map m'.functionText = l.map m.functionText := by
    refine List.map_congr_left fun g hg => hrest g (by simp [hg]) ?_
    rintro rfl
    exact (List.nodup_append.1 hd).2.2 g hg g (by simp) rfl
  have hright : r.map m'.functionText = r.map m.functionText := by
    refine List.map_congr_left fun g hg => hrest g (by simp [hg]) ?_
    rintro rfl
    exact (List.nodup_cons.1 (List.nodup_append.1 hd).2.1).1 hg
  simp only [textOf, hname, htriple, List.map_append, List.map_cons, hleft, hright] at h
  rw [← List.append_assoc, ← List.append_assoc] at h
  exact intercalate_cancel _ _ h

end Module

end ExprCompiler.IR
