import TreeFrog.MimeHeader

/-!
The parameters of a header field, whatever their number: the loop that reads them returns for
every text, and it finds the values that were written.
-/

namespace TreeFrog.HeaderParameter

open Bytes MimeHeader

/-! ### The loop returns -/

/-- The loop, begun with `header` and `result`, returns `r` after finitely many turns. -/
inductive Returns : QByteArray → Parameters → Parameters → Prop where
  | done {header : QByteArray} {result r : Parameters} : turn header result = .inr r →
      Returns header result r
  | next {header header' : QByteArray} {result result' r : Parameters} :
      turn header result = .inl (header', result') → Returns header' result' r →
      Returns header result r

/-- **The loop returns** for every text. -/
lemma returns_parameters {fuel : ℕ} {header : QByteArray} (h : header.length < fuel)
    (result : Parameters) : Returns header result (parameters fuel header result) := by
  induction fuel generalizing header result with
  | zero => omega
  | succ fuel ih =>
    rw [parameters_succ]
    cases hturn : turn header result with
    | inr r => exact .done hturn
    | inl s =>
      have hlt : s.1.length < header.length := length_turn hturn
      exact .next hturn (ih (by omega) s.2)

/-! ### Reading what was written -/

/-- The header field with these parameters. -/
def render (params : List (QByteArray × QByteArray)) : QByteArray :=
  ascii "form-data" ++ params.flatMap fun p =>
    ascii "; " ++ p.1 ++ ascii "=" ++ [QUOTE] ++ escape p.2 ++ [QUOTE]

/-- A name of a parameter, as every token is. -/
structure IsName (name : QByteArray) : Prop where
  ne_nil : name ≠ []
  clean : ∀ c ∈ name, isspace c = false ∧ c ≠ SEMICOLON ∧ c ≠ EQUAL ∧ c ≠ QUOTE

lemma isspace_of_isBlank {c : UInt8} (h : isBlank c = true) : isspace c = true := by
  simp only [isBlank, Bool.or_eq_true, decide_eq_true_eq] at h
  rcases h with ((rfl | rfl) | rfl) | rfl <;> decide

lemma isWord_of_clean {key : QByteArray} (hne : key ≠ [])
    (h : ∀ c ∈ key, isspace c = false ∧ c ≠ SEMICOLON ∧ c ≠ EQUAL) : IsWord key where
  semicolon hm := (h _ hm).2.1 rfl
  equal hm := (h _ hm).2.2 rfl
  trimmed := trimmed_of_ends (fun c hc => (h c (List.mem_of_head? hc)).1)
    fun c hc => (h c (List.mem_of_getLast? hc)).1
  ne_nil := hne
  head := by
    obtain ⟨c, key, rfl⟩ := List.exists_cons_of_ne_nil hne
    refine skipWhitespace_cons ?_ key
    by_contra hblank
    have hspace := isspace_of_isBlank (eq_true_of_ne_false hblank)
    rw [(h c (by simp)).1] at hspace
    cases hspace

lemma isName_of_all {name : QByteArray} (hne : name ≠ [])
    (h : name.all (fun c => !isspace c && c ≠ SEMICOLON && c ≠ EQUAL && c ≠ QUOTE) = true) :
    IsName name where
  ne_nil := hne
  clean c hc := by simpa [and_assoc] using List.all_eq_true.mp h c hc

lemma IsName.isWord {name : QByteArray} (h : IsName name) : IsWord name :=
  isWord_of_clean h.ne_nil fun c hc => ⟨(h.clean c hc).1, (h.clean c hc).2.1, (h.clean c hc).2.2.1⟩

lemma isWord_quote : IsWord [QUOTE] :=
  isWord_of_clean (List.cons_ne_nil _ _) fun c hc => by
    obtain rfl := List.mem_singleton.mp hc
    decide

lemma IsName.ne_quote {name : QByteArray} (h : IsName name) : name ≠ [QUOTE] := by
  rintro rfl
  exact (h.clean QUOTE (by simp)).2.2.2 rfl

/-- What stands behind the last value, or the first word. -/
def tail (params : List (QByteArray × QByteArray)) : QByteArray :=
  params.flatMap fun p => ascii "; " ++ p.1 ++ ascii "=" ++ [QUOTE] ++ escape p.2 ++ [QUOTE]

lemma tail_cons (p : QByteArray × QByteArray) (params : List (QByteArray × QByteArray)) :
    tail (p :: params) = SEMICOLON ::
      (SP :: p.1 ++ EQUAL :: QUOTE :: (escape p.2 ++ QUOTE :: tail params)) := by
  have hseparator : ascii "; " = [SEMICOLON, SP] := by decide
  have hequal : ascii "=" = [EQUAL] := by decide
  simp [tail, hseparator, hequal]

/-- **The values** of the names, and of every other key but the words that are read. -/
lemma parameters_tail {params : List (QByteArray × QByteArray)}
    (hnames : ∀ p ∈ params, IsName p.1) (hnodup : (params.map Prod.fst).Nodup) {word : QByteArray}
    (hword : IsWord word) {fuel : ℕ} (hfuel : 2 * params.length < fuel) (result : Parameters) :
    (∀ p ∈ params, parameters fuel (word ++ tail params) result p.1 = p.2) ∧
      ∀ k, k ≠ word → k ≠ [QUOTE] → k ∉ params.map Prod.fst →
        parameters fuel (word ++ tail params) result k = result k := by
  induction params generalizing word fuel result with
  | nil =>
    obtain ⟨fuel, rfl⟩ : ∃ n, fuel = n + 1 := ⟨fuel - 1, by simp at hfuel; omega⟩
    have hlast : parameters (fuel + 1) (word ++ tail []) result = result.insert word [] := by
      rw [tail, List.flatMap_nil, List.append_nil, parameters_last hword]
    rw [hlast]
    constructor
    · intro p hp
      cases hp
    · intro k hk _ _
      exact Parameters.insert_of_ne hk _ _
  | cons p params ih =>
    obtain ⟨fuel, rfl⟩ : ∃ n, fuel = n + 2 := ⟨fuel - 2, by simp at hfuel; omega⟩
    have hname := hnames p (by simp)
    rw [List.map_cons, List.nodup_cons] at hnodup
    obtain ⟨hnew, hnodup⟩ := hnodup
    have hlt : 2 * params.length < fuel := by
      rw [List.length_cons] at hfuel
      omega
    have hstep : parameters (fuel + 2) (word ++ tail (p :: params)) result =
        parameters fuel ([QUOTE] ++ tail params)
          ((result.insert word []).insert p.1 p.2) := by
      rw [tail_cons, parameters_word hword, parameters_quoted hname.isWord]
      rfl
    obtain ⟨hvalues, hothers⟩ := ih (fun q hq => hnames q (List.mem_cons_of_mem _ hq)) hnodup
      isWord_quote hlt ((result.insert word []).insert p.1 p.2)
    rw [hstep]
    constructor
    · intro q hq
      rcases List.mem_cons.mp hq with rfl | hq
      · rw [hothers q.1 hname.ne_quote hname.ne_quote hnew, Parameters.insert_self]
      · exact hvalues q hq
    · intro k hkw hkq hk
      rw [List.map_cons, List.mem_cons, not_or] at hk
      rw [hothers k hkq hkq hk.2, Parameters.insert_of_ne hk.1, Parameters.insert_of_ne hkw]

lemma length_le_tail (params : List (QByteArray × QByteArray)) :
    2 * params.length ≤ (tail params).length := by
  induction params with
  | nil => rfl
  | cons p params ih =>
    rw [tail_cons]
    simp only [List.length_cons, List.length_append]
    omega

/-- **The parameters of a header field**: reading them ends for every text, and gives the values
that were written. -/
theorem parseHeaderParameter_render :
    (∀ header, Returns header (fun _ => []) (parseHeaderParameter header)) ∧
      ∀ params : List (QByteArray × QByteArray), (∀ p ∈ params, IsName p.1) →
        (params.map Prod.fst).Nodup →
        ∀ p ∈ params, parseHeaderParameter (render params) p.1 = p.2 := by
  refine ⟨fun header => returns_parameters (Nat.lt_succ_self _) _, ?_⟩
  intro params hnames hnodup
  have hword : IsWord (ascii "form-data") := (isName_of_all (by decide) (by decide)).isWord
  have hfuel : 2 * params.length < (render params).length + 1 := by
    have hle := length_le_tail params
    have hrender : render params = ascii "form-data" ++ tail params := rfl
    rw [hrender, List.length_append]
    omega
  exact (parameters_tail hnames hnodup hword hfuel _).1

/-- The parameters of an uploaded file. -/
def upload : List (QByteArray × QByteArray) :=
  [(ascii "name", ascii "file"), (ascii "filename", ascii "a\";b=\\.txt")]

theorem parseHeaderParameter_render_upload :
    parseHeaderParameter (ascii "form-data; name=\"file\"; filename=\"a\\\";b=\\\\.txt\"")
      (ascii "filename") = ascii "a\";b=\\.txt" := by
  have hrender : ascii "form-data; name=\"file\"; filename=\"a\\\";b=\\\\.txt\"" =
      render upload := by decide +kernel
  rw [hrender]
  refine parseHeaderParameter_render.2 upload ?_ (by decide) (ascii "filename", _)
    (List.mem_cons_of_mem _ (List.mem_singleton_self _))
  intro p hp
  simp only [upload, List.mem_cons, List.not_mem_nil, or_false] at hp
  rcases hp with rfl | rfl
  · exact isName_of_all (by decide) (by decide)
  · exact isName_of_all (by decide) (by decide)

end TreeFrog.HeaderParameter
