import TreeFrog.Bytes

/-!
Mail data as an SMTP server receives it: line by line up to the line that is a single dot. The first
dot of every other line that begins with one is removed; the sender has put it there.

A text that is sent as it is comes out as it is exactly when none of its lines begins with a dot.
-/

namespace TreeFrog.MailData

open TreeFrog.Search TreeFrog.Bytes

def DOT : UInt8 := 46

/-- The line at the front, and what follows its end. -/
def nextLine (b : QByteArray) : Option (QByteArray × QByteArray) :=
  (search CRLF b).map fun i => (b.take i, b.drop (i + CRLF.length))

def unstuff : QByteArray → QByteArray
  | [] => []
  | c :: t => if c = DOT then t else c :: t

/-- Lines until the end of the data; there is no end as long as a line is not complete. -/
def receiveLoop : ℕ → QByteArray → Option (QByteArray × QByteArray)
  | 0, _ => none
  | fuel + 1, b =>
    match nextLine b with
    | none => none
    | some (line, rest) =>
      if line = [DOT] then some ([], rest)
      else (receiveLoop fuel rest).map fun r => (unstuff line ++ CRLF ++ r.1, r.2)

/-- The text, and the bytes behind its end, which are read as commands. Every line takes two bytes
at least, so that as many turns as there are bytes are enough. -/
def receive (b : QByteArray) : Option (QByteArray × QByteArray) := receiveLoop b.length b

/-- The texts are the same but for one CRLF at the end. -/
def UpToCRLF (a b : QByteArray) : Prop := a = b ∨ a = b ++ CRLF ∨ b = a ++ CRLF

/-- A line of the text begins with a dot. -/
def Dotted (b : QByteArray) : Prop := [DOT] <+: b ∨ CRLF ++ [DOT] <:+: b

/-! ### The lines of a text -/

/-- The lines between the line ends. -/
inductive Lines : QByteArray → List QByteArray → Prop
  | last {l} : search CRLF l = none → Lines l [l]
  | cons {l t ls} : search CRLF (l ++ CRLF ++ t) = some l.length → Lines t ls →
      Lines (l ++ CRLF ++ t) (l :: ls)

lemma search_crlf_split {b : QByteArray} {i : ℕ} (h : search CRLF b = some i) :
    b = b.take i ++ CRLF ++ b.drop (i + CRLF.length) ∧ (b.take i).length = i := by
  obtain ⟨hle, ⟨t, ht⟩, -⟩ := search_eq_some_iff.mp h
  refine ⟨?_, List.length_take_of_le hle⟩
  rw [← List.drop_drop, ← ht, List.drop_left, List.append_assoc, ht, List.take_append_drop]

lemma exists_lines (b : QByteArray) : ∃ ls, Lines b ls := by
  induction hn : b.length using Nat.strong_induction_on generalizing b with
  | _ n ih =>
    subst hn
    cases h : search CRLF b with
    | none => exact ⟨[b], .last h⟩
    | some i =>
      obtain ⟨hsplit, hlength⟩ := search_crlf_split h
      have hend := search_add_length_le h
      have hpos : 0 < CRLF.length := by decide
      obtain ⟨ls, hls⟩ := ih _ (by rw [List.length_drop]; omega) (b.drop (i + CRLF.length)) rfl
      have hcons : Lines (b.take i ++ CRLF ++ b.drop (i + CRLF.length)) (b.take i :: ls) :=
        .cons (by rw [← hsplit, h, hlength]) hls
      rw [← hsplit] at hcons
      exact ⟨_, hcons⟩

variable {b : QByteArray} {ls : List QByteArray}

lemma Lines.append_crlf (h : Lines b ls) : b ++ CRLF = ls.flatMap (· ++ CRLF) := by
  induction h with
  | last _ => simp
  | cons _ _ ih => rw [List.flatMap_cons, ← ih, List.append_assoc, List.append_assoc]

lemma Lines.length_le (h : Lines b ls) : ls.length ≤ b.length + 1 := by
  induction h with
  | last _ => simp
  | cons _ _ ih =>
    have hcrlf : CRLF.length = 2 := rfl
    simp only [List.length_append, List.length_cons]
    omega

lemma nextLine_append {l t : QByteArray} (h : search CRLF l = none) :
    nextLine (l ++ CRLF ++ t) = some (l, t) := by
  have hsearch : search CRLF (l ++ CRLF ++ t) = some l.length := by
    refine search_eq_some_iff.mpr ⟨by simp, ⟨t, by simp⟩, fun j hj hpre => ?_⟩
    refine search_eq_none_iff.mp h j hj.le ?_
    have hdrop : (l ++ CRLF ++ t).drop j = l.drop j ++ (CRLF ++ t) := by
      rw [List.append_assoc, List.drop_append_of_le_length hj.le]
    rw [hdrop] at hpre
    -- an end that began in the line would have its LF at the place of the CR
    obtain ⟨c, r, hr⟩ := List.exists_cons_of_ne_nil
      (List.ne_nil_of_length_pos (l := l.drop j) (by rw [List.length_drop]; omega))
    rw [hr] at hpre ⊢
    cases r with
    | nil =>
      obtain ⟨-, hpre⟩ := List.cons_prefix_cons.mp hpre
      obtain ⟨hcr, -⟩ := List.cons_prefix_cons.mp hpre
      exact absurd hcr (by decide)
    | cons d r =>
      obtain ⟨hc, hpre⟩ := List.cons_prefix_cons.mp hpre
      obtain ⟨hd, -⟩ := List.cons_prefix_cons.mp hpre
      rw [← hc, ← hd]
      exact ⟨r, rfl⟩
  rw [nextLine, hsearch, Option.map_some, ← List.length_append, List.drop_left,
    List.append_assoc, List.take_left]

lemma nextLine_cons {l t r : QByteArray} (h : search CRLF (l ++ CRLF ++ t) = some l.length) :
    nextLine (l ++ CRLF ++ t ++ r) = some (l, t ++ r) := by
  rw [nextLine, search_append h, Option.map_some, List.append_assoc, ← List.length_append,
    List.drop_left, List.append_assoc, List.take_left]

/-! ### A text sent as it is -/

/-- The text with a line end and the line that ends the data. -/
def sent (b : QByteArray) : QByteArray := b ++ CRLF ++ [DOT] ++ CRLF

lemma receiveLoop_end (fuel : ℕ) : receiveLoop (fuel + 1) ([DOT] ++ CRLF) = some ([], []) := rfl

lemma receiveLoop_line {fuel : ℕ} {line rest : QByteArray} (h : nextLine b = some (line, rest)) :
    receiveLoop (fuel + 1) b =
      if line = [DOT] then some ([], rest)
      else (receiveLoop fuel rest).map fun r => (unstuff line ++ CRLF ++ r.1, r.2) := by
  rw [receiveLoop, h]

lemma Lines.receiveLoop_sent (h : Lines b ls) (hdot : [DOT] ∉ ls) {fuel : ℕ}
    (hfuel : ls.length < fuel) :
    receiveLoop fuel (sent b) = some (ls.flatMap fun l => unstuff l ++ CRLF, []) := by
  induction h generalizing fuel with
  | @last l hl =>
    obtain ⟨fuel, rfl⟩ : ∃ k, fuel = k + 2 := ⟨fuel - 2, by simp at hfuel; omega⟩
    have hne : l ≠ [DOT] := fun hl => hdot (by rw [hl]; exact List.mem_singleton.mpr rfl)
    have hnext : nextLine (sent l) = some (l, [DOT] ++ CRLF) := by
      rw [sent, List.append_assoc (l ++ CRLF)]
      exact nextLine_append hl
    rw [receiveLoop_line hnext, if_neg hne, receiveLoop_end]
    simp
  | @cons l t ls hl _ ih =>
    obtain ⟨fuel, rfl⟩ : ∃ k, fuel = k + 1 := ⟨fuel - 1, by omega⟩
    rw [List.mem_cons, not_or] at hdot
    have hnext : nextLine (sent (l ++ CRLF ++ t)) = some (l, sent t) := by
      rw [sent, sent, List.append_assoc _ CRLF, List.append_assoc _ _ CRLF, nextLine_cons hl,
        List.append_assoc t, List.append_assoc t]
    have hrest := @ih hdot.2 fuel (by rw [List.length_cons] at hfuel; omega)
    rw [receiveLoop_line hnext, if_neg (Ne.symm hdot.1), hrest, Option.map_some, List.flatMap_cons]

lemma Lines.receiveLoop_early (h : Lines b ls) (hdot : [DOT] ∈ ls) {fuel : ℕ}
    (hfuel : ls.length < fuel) :
    ∃ text behind, receiveLoop fuel (sent b) = some (text, behind) ∧ behind ≠ [] := by
  induction h generalizing fuel with
  | @last l hl =>
    obtain ⟨fuel, rfl⟩ : ∃ k, fuel = k + 1 := ⟨fuel - 1, by omega⟩
    obtain rfl := List.mem_singleton.mp hdot
    exact ⟨[], [DOT] ++ CRLF, rfl, List.cons_ne_nil _ _⟩
  | @cons l t ls hl _ ih =>
    obtain ⟨fuel, rfl⟩ : ∃ k, fuel = k + 1 := ⟨fuel - 1, by omega⟩
    have hnext : nextLine (sent (l ++ CRLF ++ t)) = some (l, sent t) := by
      rw [sent, sent, List.append_assoc _ CRLF, List.append_assoc _ _ CRLF, nextLine_cons hl,
        List.append_assoc t, List.append_assoc t]
    rw [receiveLoop_line hnext]
    by_cases hline : l = [DOT]
    · rw [if_pos hline]
      exact ⟨[], sent t, rfl, List.append_ne_nil_of_right_ne_nil _ (List.cons_ne_nil _ _)⟩
    · rw [if_neg hline]
      obtain ⟨text, behind, hrest, hne⟩ :=
        @ih ((List.mem_cons.mp hdot).resolve_left (Ne.symm hline)) fuel
          (by rw [List.length_cons] at hfuel; omega)
      exact ⟨_, behind, by rw [hrest, Option.map_some], hne⟩

/-! ### Dots -/

lemma search_of_infix {b : QByteArray} (h : CRLF ++ [DOT] <:+: b) : search CRLF b ≠ none := by
  obtain ⟨s, r, rfl⟩ := h
  intro hnone
  refine search_eq_none_iff.mp hnone s.length (by simp) ⟨[DOT] ++ r, ?_⟩
  simp

lemma infix_append_crlf {l t : QByteArray} (h : search CRLF (l ++ CRLF ++ t) = some l.length) :
    CRLF ++ [DOT] <:+: l ++ CRLF ++ t ↔ Dotted t := by
  constructor
  · rintro ⟨s, r, hs⟩
    -- no line end comes before the first one
    have hle : l.length ≤ s.length := by
      by_contra hlt
      obtain ⟨-, -, hmin⟩ := search_eq_some_iff.mp h
      refine hmin s.length (by omega) ⟨[DOT] ++ r, ?_⟩
      rw [← hs]
      simp
    rw [List.append_assoc s, List.append_assoc l] at hs
    obtain ⟨u, rfl⟩ : ∃ u, s = l ++ u := by
      rcases List.append_eq_append_iff.mp hs with ⟨u, hu, -⟩ | ⟨u, hu, -⟩
      · have hnil : u = [] := by
          rw [hu, List.length_append] at hle
          exact List.length_eq_zero_iff.mp (by omega)
        exact ⟨[], by rw [hu, hnil, List.append_nil, List.append_nil]⟩
      · exact ⟨u, hu⟩
    rw [List.append_assoc] at hs
    have hrest : u ++ (CRLF ++ [DOT] ++ r) = CRLF ++ t := List.append_cancel_left hs
    cases u with
    | nil =>
      rw [List.nil_append, List.append_assoc] at hrest
      exact .inl ⟨r, List.append_cancel_left hrest⟩
    | cons x u =>
      cases u with
      | nil =>
        -- the two line ends would overlap in one byte
        obtain ⟨-, hlf⟩ := List.cons.inj hrest
        exact absurd (List.cons.inj hlf).1 (by decide)
      | cons y u =>
        have ht := (List.cons.inj (List.cons.inj hrest).2).2
        exact .inr ⟨u, r, by rw [List.append_assoc]; exact ht⟩
  · rintro (⟨r, rfl⟩ | ⟨s, r, rfl⟩)
    · exact ⟨l, r, by simp⟩
    · exact ⟨l ++ CRLF ++ s, r, by simp⟩

lemma Lines.dotted_iff (h : Lines b ls) : Dotted b ↔ ∃ l ∈ ls, [DOT] <+: l := by
  induction h with
  | @last l hl =>
    simp only [Dotted, List.mem_singleton, exists_eq_left]
    exact or_iff_left fun hinfix => search_of_infix hinfix hl
  | @cons l t ls hl _ ih =>
    have hfront : [DOT] <+: l ++ CRLF ++ t ↔ [DOT] <+: l := by
      cases l with
      | nil =>
        refine iff_of_false (fun hpre => ?_) (fun hpre => ?_)
        · exact absurd (List.cons_prefix_cons.mp hpre).1 (by decide)
        · exact absurd (List.prefix_nil.mp hpre) (List.cons_ne_nil _ _)
      | cons c l => simp [List.cons_prefix_cons]
    rw [Dotted, hfront, infix_append_crlf hl, ih]
    simp only [List.mem_cons, exists_eq_or_imp]

lemma unstuff_undotted {l : QByteArray} (h : ¬ [DOT] <+: l) : unstuff l = l := by
  cases l with
  | nil => rfl
  | cons c l => exact if_neg fun hc => h (by rw [hc]; exact ⟨l, rfl⟩)

lemma length_unstuff {l : QByteArray} (h : [DOT] <+: l) :
    (unstuff l).length + 1 = l.length := by
  obtain ⟨t, rfl⟩ := h
  rfl

lemma length_unstuff_le (l : QByteArray) : (unstuff l).length ≤ l.length := by
  by_cases h : [DOT] <+: l
  · have := length_unstuff h
    omega
  · rw [unstuff_undotted h]

lemma count_unstuff (l : QByteArray) : (unstuff l).count LF = l.count LF := by
  by_cases h : [DOT] <+: l
  · obtain ⟨t, rfl⟩ := h
    exact (List.count_cons_of_ne (by decide)).symm
  · rw [unstuff_undotted h]

lemma count_received (ls : List QByteArray) :
    (ls.flatMap fun l => unstuff l ++ CRLF).count LF = (ls.flatMap (· ++ CRLF)).count LF := by
  induction ls with
  | nil => rfl
  | cons l ls ih =>
    rw [List.flatMap_cons, List.flatMap_cons, List.count_append, List.count_append,
      List.count_append, List.count_append, count_unstuff, ih]

lemma length_received_le (ls : List QByteArray) :
    (ls.flatMap fun l => unstuff l ++ CRLF).length ≤ (ls.flatMap (· ++ CRLF)).length := by
  induction ls with
  | nil => exact le_rfl
  | cons l ls ih =>
    have hl := length_unstuff_le l
    simp only [List.flatMap_cons, List.length_append]
    omega

lemma length_received_lt (h : ∃ l ∈ ls, [DOT] <+: l) :
    (ls.flatMap fun l => unstuff l ++ CRLF).length < (ls.flatMap (· ++ CRLF)).length := by
  induction ls with
  | nil => simp at h
  | cons l ls ih =>
    have hle := length_received_le ls
    have hl := length_unstuff_le l
    simp only [List.flatMap_cons, List.length_append]
    rcases (List.exists_mem_cons_iff ..).mp h with hdot | hrest
    · have := length_unstuff hdot
      omega
    · have := ih hrest
      omega

/-- **A text sent as it is** is received as it is, and wholly, exactly when none of its lines begins
with a dot. -/
theorem receive_sent_iff (b : QByteArray) :
    (∃ text, receive (sent b) = some (text, []) ∧ UpToCRLF text b) ↔ ¬ Dotted b := by
  obtain ⟨ls, hls⟩ := exists_lines b
  have hfuel : ls.length < (sent b).length := by
    have hle := hls.length_le
    have hcrlf : CRLF.length = 2 := rfl
    simp only [sent, List.length_append, List.length_singleton]
    omega
  rw [hls.dotted_iff, receive]
  constructor
  · rintro ⟨text, htext, hsame⟩ hdot
    by_cases hend : [DOT] ∈ ls
    · obtain ⟨text', behind, hearly, hne⟩ := hls.receiveLoop_early hend hfuel
      rw [hearly] at htext
      exact hne (Prod.mk.inj (Option.some.inj htext)).2
    · rw [hls.receiveLoop_sent hend hfuel] at htext
      obtain ⟨rfl, -⟩ := Prod.mk.inj (Option.some.inj htext)
      -- the LF at the end is not lost, a dot is
      have hcount := count_received ls
      have hlength := length_received_lt hdot
      rw [← hls.append_crlf] at hcount hlength
      have hlf : CRLF.count LF = 1 := rfl
      rw [List.count_append, hlf] at hcount
      rcases hsame with h | h | h
      · rw [h] at hcount
        omega
      · rw [h] at hlength
        omega
      · rw [h, List.count_append, hlf] at hcount
        omega
  · intro hdot
    have hend : [DOT] ∉ ls := fun hmem => hdot ⟨_, hmem, List.prefix_rfl⟩
    refine ⟨_, hls.receiveLoop_sent hend hfuel, .inr (.inl ?_)⟩
    rw [hls.append_crlf]
    refine List.flatMap_congr fun l hl => ?_
    rw [unstuff_undotted fun hpre => hdot ⟨l, hl, hpre⟩]

end TreeFrog.MailData
