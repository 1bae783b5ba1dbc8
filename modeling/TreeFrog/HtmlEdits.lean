import TreeFrog.HtmlCopy

/-!
Any sequence of the operations of `THtmlParser` on a parsed text. The table stays a forest under the
root as long as no operation puts an element below itself. That happens where the last element is
empty, so that `insertNewElement` takes it again, and is the parent as well.
-/

namespace TreeFrog.HtmlEdits

open ErbParser hiding parse parseLoop
open HtmlElement THtmlParser HtmlForest HtmlScan HtmlParser HtmlShown HtmlCopy

/-! ### Operations -/

inductive Operation where
  | append (parent : ℕ) (parser : THtmlParser)
  | prepend (parent : ℕ) (parser : THtmlParser)
  | appendNewElement (parent : ℕ)
  | insertNewElement (parent : ℕ) (index : ℤ)
  | removeElementTree (index : ℕ) (removeNewline : Bool)
  | removeChildElements (index : ℕ)
  | removeTag (index : ℕ)
  | merge (other : THtmlParser)

namespace Operation

def apply (d : THtmlParser) : Operation → Option THtmlParser
  | append parent parser => d.append parent parser
  | prepend parent parser => d.prepend parent parser
  | appendNewElement parent => some (d.appendNewElement parent)
  | insertNewElement parent index => some (d.insertNewElement parent index)
  | removeElementTree index removeNewline => d.removeElementTree index removeNewline
  | removeChildElements index => THtmlParser.removeChildElements d.elementCount d index
  | removeTag index => some (d.removeTag index)
  | merge other => d.merge other

/-- The element the operation is about. -/
def index : Operation → Option ℕ
  | append parent _ | prepend parent _ | appendNewElement parent | insertNewElement parent _ =>
    some parent
  | removeElementTree index _ | removeChildElements index | removeTag index => some index
  | merge _ => none

/-- The table that is copied from. -/
def source : Operation → Option THtmlParser
  | append _ parser | prepend _ parser | merge parser => some parser
  | _ => none

/-- The indexes are those of elements. -/
def Valid (d : THtmlParser) (op : Operation) : Prop := ∀ i ∈ op.index, i < d.elementCount

/-- The element that is used again is not the parent, and no empty element that is copied has
children to put below it. -/
def Safe (d : THtmlParser) : Operation → Prop
  | append parent parser | prepend parent parser =>
    1 < parser.elementCount → parent ≠ newIndex d ∧ Solid (treeOf parser 1)
  | appendNewElement parent | insertNewElement parent _ => parent ≠ newIndex d
  | removeElementTree _ _ | removeChildElements _ | removeTag _ => True
  | merge other =>
    1 < d.elementCount → 1 < other.elementCount → (d.elements 1).tag = (other.elements 1).tag →
      (other.elements 1).children ≠ [] →
        1 ≠ newIndex (merged d other) ∧ ∀ c ∈ (other.elements 1).children, Solid (treeOf other c)

end Operation

/-- The tables that come of a parsed text by operations. -/
inductive Reached : THtmlParser → Prop where
  | parsed {trimMode : TrimMode} {text : QString} {st : State} (h : parse trimMode text = .ok st) :
      Reached st.doc
  | step {d d' : THtmlParser} {op : Operation} (hd : Reached d)
      (hsource : ∀ o ∈ op.source, Reached o) (hvalid : op.Valid d) (hsafe : op.Safe d)
      (h : op.apply d = some d') : Reached d'

variable {d d' o : THtmlParser} {p i : ℕ} {op : Operation}

/-! ### One operation -/

lemma merge_forest (hd : Forest d) (ho : Forest o) (hsafe : (Operation.merge o).Safe d) :
    ∃ d', d.merge o = some d' ∧ Forest d' := by
  rw [merge]
  split_ifs with h
  · exact ⟨d, rfl, hd⟩
  · simp only [not_or, not_le, not_not] at h
    obtain ⟨hcount, hocount, htag⟩ := h
    have hlinks := subLinks_merged d o
    by_cases hnil : (o.elements 1).children = []
    · rw [hnil]
      exact ⟨merged d o, rfl, hlinks.forest hd⟩
    · obtain ⟨hne, hsolid⟩ := hsafe hcount hocount htag hnil
      obtain ⟨d', hok, hd', -⟩ := prepend_all (hlinks.forest hd)
        (hlinks.count_eq ▸ hcount) hne ho.ordered fun c hc =>
          ⟨ho.lt_child hocount hc, (ho.child 1 hocount c hc).2.1, hsolid c hc⟩
      exact ⟨d', hok, hd'⟩

/-- **A safe operation** comes to an end and keeps the forest. -/
theorem apply_forest (hd : Forest d) (hsource : ∀ o ∈ op.source, Forest o) (hvalid : op.Valid d)
    (hsafe : op.Safe d) : ∃ d', op.apply d = some d' ∧ Forest d' := by
  have hinsert {p : ℕ} (hp : p < d.elementCount) (hne : p ≠ newIndex d) (index : ℤ) :
      Forest (d.insertNewElement p index) :=
    (inserted hd hp hne index).forest hd hp hne
  have hcopy {index : ℤ} (hindex : index = 0 ∨ index = -1) {p : ℕ} (hp : p < d.elementCount)
      {o : THtmlParser} (ho : Forest o)
      (h : 1 < o.elementCount → p ≠ newIndex d ∧ Solid (treeOf o 1)) :
      ∃ d', attach index o.elementCount d p o = some d' ∧ Forest d' := by
    by_cases hcount : 1 < o.elementCount
    · obtain ⟨hne, hs⟩ := h hcount
      obtain ⟨d', hok, hatt⟩ :=
        attach_spec hindex o.elementCount hd hp hne ho.ordered hcount le_rfl hs
      exact ⟨d', hok, hatt.forest⟩
    · obtain ⟨n, hn⟩ := Nat.exists_eq_succ_of_ne_zero ho.pos.ne'
      rw [hn, attach, if_pos (by omega)]
      exact ⟨d, rfl, hd⟩
  cases op with
  | append p o => exact hcopy (.inr rfl) (hvalid p rfl) (hsource o rfl) hsafe
  | prepend p o => exact hcopy (.inl rfl) (hvalid p rfl) (hsource o rfl) hsafe
  | appendNewElement => exact ⟨_, rfl, hinsert (hvalid _ rfl) hsafe (-1)⟩
  | insertNewElement _ index => exact ⟨_, rfl, hinsert (hvalid _ rfl) hsafe index⟩
  | removeElementTree i removeNewline =>
    obtain ⟨d', hok, hlinks⟩ := SubLinks.removeElementTree hd (hvalid i rfl) removeNewline
    exact ⟨d', hok, hlinks.forest hd⟩
  | removeChildElements i =>
    obtain ⟨d', hok, hlinks⟩ := SubLinks.removeChildElements hd (hvalid i rfl)
      (Nat.le_add_left d.elementCount i)
    exact ⟨d', hok, hlinks.forest hd⟩
  | removeTag i => exact ⟨_, rfl, (SubLinks.removeTag d i).forest hd⟩
  | merge o => exact merge_forest hd (hsource o rfl) hsafe

/-! ### All sequences -/

lemma Reached.forest (h : Reached d) : Forest d := by
  induction h with
  | parsed h => exact (parse_built h).forest
  | step _ _ hvalid hsafe happly ih ihsource =>
    obtain ⟨d', hok, hd'⟩ := apply_forest ih ihsource hvalid hsafe
    exact Option.some.inj (hok.symm.trans happly) ▸ hd'

/-- The table is a forest under the root, so that all recursions over it come to an end. -/
structure Consistent (d : THtmlParser) : Prop where
  child : ∀ p < d.elementCount, ∀ c ∈ (d.elements p).children,
    c < d.elementCount ∧ (d.elements c).parent = p
  once : ∀ p < d.elementCount, (d.elements p).children.Nodup
  rooted : ∀ i < d.elementCount, ∃ n, (fun i => (d.elements i).parent)^[n] i = 0
  toString : ∃ s, d.toString = some s
  depth : ∀ i < d.elementCount, ∃ n, THtmlParser.depth d.elementCount d i = some n
  parentExists : ∀ i < d.elementCount, ∀ tag, ∃ b,
    THtmlParser.parentExists d.elementCount d i tag = some b

lemma rooted (hd : Forest d) (hi : i < d.elementCount) :
    ∃ n, (fun i => (d.elements i).parent)^[n] i = 0 := by
  induction i using Nat.strong_induction_on with
  | _ i ih =>
    rcases Nat.eq_zero_or_pos i with rfl | hpos
    · exact ⟨0, rfl⟩
    · have hlt := hd.parent_lt i hpos hi
      obtain ⟨n, hn⟩ := ih _ hlt (hlt.trans hi)
      exact ⟨n + 1, hn⟩

lemma Forest.consistent (hd : Forest d) : Consistent d where
  child p hp c hc := (hd.child p hp c hc).2
  once := hd.nodup
  rooted _ hi := HtmlEdits.rooted hd hi
  toString := ⟨_, toString_eq hd⟩
  depth _ hi := depth_some hd hi hi
  parentExists _ hi tag := parentExists_some hd hi hi tag

/-- **All sequences of operations** that put no element below itself keep the table a forest under
the root, and each of them comes to an end. -/
theorem reached_consistent (h : Reached d) : Consistent d ∧
    ∀ op : Operation, (∀ o ∈ op.source, Reached o) → op.Valid d → op.Safe d →
      ∃ d', op.apply d = some d' ∧ Consistent d' := by
  refine ⟨Forest.consistent h.forest, fun op hsource hvalid hsafe => ?_⟩
  obtain ⟨d', hok, hd'⟩ :=
    apply_forest h.forest (fun o ho => (hsource o ho).forest) hvalid hsafe
  exact ⟨d', hok, Forest.consistent hd'⟩

/-- `<a></a>` is copied into the `p` of `<p></p>`. -/
theorem reached_consistent_append : ∃ st st' d', parse .trimOff (lit "<p></p>") = .ok st ∧
    parse .trimOff (lit "<a></a>") = .ok st' ∧ st.doc.append 1 st'.doc = some d' ∧
    Consistent d' := by
  obtain ⟨st, h, -⟩ := parse_asserts_iff .trimOff (lit "<p></p>")
  obtain ⟨st', h', -⟩ := parse_asserts_iff .trimOff (lit "<a></a>")
  have hrun : (parse .trimOff (lit "<p></p>")).toOption.map (fun st =>
      (st.doc.elementCount, newIndex st.doc)) = some (3, 2) := by
    decide
  have hrun' : (parse .trimOff (lit "<a></a>")).toOption.map (fun st =>
      (st.doc.elements 1).children) = some [] := by
    decide
  rw [h, Except.toOption, Option.map_some, Option.some.injEq, Prod.mk.injEq] at hrun
  rw [h', Except.toOption, Option.map_some, Option.some.injEq] at hrun'
  have hforest := Reached.parsed h' |>.forest
  have hvalid : (Operation.append 1 st'.doc).Valid st.doc := by
    simp [Operation.Valid, Operation.index, hrun.1]
  have hsafe : (Operation.append 1 st'.doc).Safe st.doc := by
    intro hcount
    rw [hrun.2, treeOf_eq hforest.ordered hcount, hrun']
    exact ⟨by decide, fun _ => rfl, trivial⟩
  obtain ⟨d', happly, hd'⟩ := (reached_consistent (.parsed h)).2 (.append 1 st'.doc)
    (fun o ho => Option.some.inj ho ▸ .parsed h') hvalid hsafe
  exact ⟨st, st', d', h, h', happly, hd'⟩

/-- `<p></p>`: the parser leaves an empty element behind the closed one, which is then its own
parent. -/
theorem appendNewElement_last : ∃ st d', parse .trimOff (lit "<p></p>") = .ok st ∧
    (Operation.appendNewElement 2).Valid st.doc ∧
    (Operation.appendNewElement 2).apply st.doc = some d' ∧ ¬Consistent d' := by
  obtain ⟨st, hok, -⟩ := parse_asserts_iff .trimOff (lit "<p></p>")
  have hrun : (parse .trimOff (lit "<p></p>")).toOption.map (fun st =>
      (st.doc.elementCount, (st.doc.appendNewElement 2).elementCount,
        ((st.doc.appendNewElement 2).elements 2).parent)) = some (3, 3, 2) := by
    decide
  rw [hok, Except.toOption, Option.map_some, Option.some.injEq, Prod.mk.injEq,
    Prod.mk.injEq] at hrun
  obtain ⟨hcount, hcount', hparent⟩ := hrun
  have hloop : ∀ fuel, THtmlParser.depth fuel (st.doc.appendNewElement 2) 2 = none := by
    intro fuel
    induction fuel with
    | zero => rfl
    | succ fuel ih => rw [THtmlParser.depth, if_pos Nat.two_pos, hparent, ih]; rfl
  refine ⟨st, _, hok, ?_, rfl, fun h => ?_⟩
  · simp [Operation.Valid, Operation.index, hcount]
  · obtain ⟨n, hn⟩ := h.depth 2 (by omega)
    rw [hloop] at hn
    cases hn

end TreeFrog.HtmlEdits
