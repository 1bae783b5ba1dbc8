import TreeFrog.EpollSocket

/-!
Does it matter into which pieces a request is cut on its way to the epoll server?

The piece that completes the header and the pieces behind it are held against the limit in
two different ways. The decisions agree unless the limit lies between the length of the body
and the length of the whole request.
-/

namespace TreeFrog.Reception

open TreeFrog.Bytes TreeFrog.MessageHeader TreeFrog.RequestHeader
open TreeFrog.Wire TreeFrog.Pipeline TreeFrog.EpollSocket

/-- What has become of a request when its pieces have been fed in. -/
inductive Decision
  | waiting
  | rejected (statusCode : ℕ)
  /-- It became readable with the last piece. -/
  | readable (request : QByteArray)
  /-- The protocol was switched with the last piece. -/
  | switched (s : Switch)
  /-- It became readable, or the protocol was switched, before the last piece. -/
  | early
  deriving DecidableEq

variable (limit : ℤ) (ep : THttpRequestHeader → Bool)

def decision : TEpollHttpSocket → List QByteArray → Decision
  | _, [] => .waiting
  | s, c :: cs =>
    match s.seekRecvBuffer limit ep c with
    | .error e => .rejected e.statusCode
    | .ok (_, some w) => if cs = [] then .switched w else .early
    | .ok (s, none) =>
      if s.canReadRequest then if cs = [] then .readable s.readRequest.1 else .early
      else decision s cs

/-- The decision on the declared length alone. -/
def intended (r : Request) : Decision :=
  if 0 < limit ∧ limit < r.body.length then .rejected 413
  else
    match ((⟨r.bytes, 0⟩ : TEpollHttpSocket).checkUpgrade ep).2 with
    | some w => .switched w
    | none => .readable r.bytes

variable {limit ep} {r : Request}

lemma flatten_eq_nil {cs : List QByteArray} (hcs : ∀ c ∈ cs, c ≠ []) (h : cs.flatten = []) :
    cs = [] := by
  rw [List.flatten_eq_nil_iff] at h
  exact List.eq_nil_iff_forall_not_mem.mpr fun c hc => hcs c hc (h c hc)

lemma decision_last (hpass : ¬ (0 < limit ∧ limit < r.body.length)) {b c : QByteArray}
    (hseek : (holding r b).seekRecvBuffer limit ep c =
      .ok ((holding r (b ++ c)).checkUpgrade ep)) (hend : b ++ c = r.bytes) :
    decision limit ep (holding r b) [c] = intended limit ep r := by
  rw [decision, hseek, hend, holding_complete le_rfl, intended, if_neg hpass]
  unfold TEpollHttpSocket.checkUpgrade
  rw [if_pos rfl]
  simp only
  split_ifs <;> rfl

/-- **One piece**: when it is let pass, the decision is left to the pieces behind it. -/
lemma decision_step (hpass : ¬ (0 < limit ∧ limit < r.body.length)) {b c : QByteArray}
    {cs : List QByteArray} (hcs : ∀ x ∈ cs, x ≠ [])
    (hseek : (holding r b).seekRecvBuffer limit ep c =
      .ok ((holding r (b ++ c)).checkUpgrade ep))
    (hend : b ++ c ++ cs.flatten = r.bytes)
    (ih : (b ++ c).length < r.bytes.length →
      decision limit ep (holding r (b ++ c)) cs = intended limit ep r) :
    decision limit ep (holding r b) (c :: cs) = intended limit ep r := by
  rcases Nat.lt_or_ge (b ++ c).length r.bytes.length with hlt | hge
  · rw [decision, hseek, checkUpgrade_incomplete ep hlt]
    simp only [canReadRequest_holding hlt, Bool.false_eq_true, if_false]
    exact ih hlt
  · have hnil : cs.flatten = [] := by
      have := congrArg List.length hend
      rw [List.length_append] at this
      exact List.length_eq_zero_iff.mp (by omega)
    rw [flatten_eq_nil hcs hnil]
    rw [hnil, List.append_nil] at hend
    exact decision_last hpass hseek hend

variable (ep) in
/-- **The pieces of a request**: the decision is the intended one when the limit cannot lie
between the length of the body and the length of the request. -/
lemma decision_pieces
    (hfit : limit ≤ 0 ∨ limit < r.body.length ∨ (r.bytes.length : ℤ) ≤ limit ∨ r.body = [])
    {b : QByteArray} {cs : List QByteArray} (hcs : ∀ c ∈ cs, c ≠ [])
    (hend : b ++ cs.flatten = r.bytes) (hlt : b.length < r.bytes.length)
    (hpassed : r.head.length ≤ b.length → ¬ (0 < limit ∧ limit < r.body.length)) :
    decision limit ep (holding r b) cs = intended limit ep r := by
  induction cs generalizing b with
  | nil =>
    rw [List.flatten_nil, List.append_nil] at hend
    rw [hend] at hlt
    omega
  | cons c cs ih =>
    obtain ⟨hc, hcs⟩ := List.forall_mem_cons.mp hcs
    rw [List.flatten_cons, ← List.append_assoc] at hend
    have hpre : b ++ c <+: r.head ++ r.body := ⟨cs.flatten, hend⟩
    rcases Nat.lt_or_ge (b ++ c).length r.head.length with hshort | hlong
    · -- still no header
      have hbytes : (b ++ c).length < r.bytes.length := by
        have := head_length_le r
        omega
      rw [decision, seekRecvBuffer_short limit ep hpre hshort hc]
      simp only [canReadRequest_holding hbytes, Bool.false_eq_true, if_false]
      exact ih hcs hend hbytes (by omega)
    · obtain ⟨u, hu, hubody⟩ := eq_head_append hpre hlong
      rcases Nat.lt_or_ge b.length r.head.length with hb | hb
      · -- the header has just arrived
        have hfields : r.fields ≠ [] ∨ u = [] := by
          by_cases hne : r.fields = []
          · have hbody : r.body = [] := by
              have := r.body_length
              rw [hne] at this
              exact List.length_eq_zero_iff.mp (this.trans (by decide))
            rw [hbody, List.prefix_nil] at hubody
            exact Or.inr hubody
          · exact Or.inl hne
        have hseek := seekRecvBuffer_head limit ep hu hfields hb hc
        by_cases hpass : 0 < limit ∧ limit < r.body.length
        · rw [if_pos hpass] at hseek
          rw [decision, hseek, intended, if_pos hpass]
        · rw [if_neg hpass] at hseek
          exact decision_step hpass hcs hseek hend fun h => ih hcs hend h fun _ => hpass
      · -- the header was there before, so there is a body
        have hpass := hpassed hb
        have hbody : r.body ≠ [] := by
          intro h0
          rw [Request.bytes, h0, List.append_nil] at hlt
          omega
        have hseek := seekRecvBuffer_more limit ep hb hc
        have hle : ¬ (0 < limit ∧ limit < (b ++ c).length) := by
          rintro ⟨h0, hl⟩
          have := hpre.length_le
          rw [← Request.bytes] at this
          rcases hfit with h | h | h | h
          · omega
          · exact hpass ⟨h0, h⟩
          · omega
          · exact hbody h
        rw [if_neg hle] at hseek
        exact decision_step hpass hcs hseek hend fun h => ih hcs hend h fun _ => hpass

lemma bytes_length_pos (r : Request) : 0 < r.bytes.length := by
  have := head_length_pos r
  have := head_length_le r
  omega

/-- A request that arrives in one piece meets only the first check. -/
lemma decision_whole (r : Request) : decision limit ep {} [r.bytes] = intended limit ep r := by
  have hne : r.bytes ≠ [] := List.ne_nil_of_length_pos (bytes_length_pos r)
  have hb : ([] : QByteArray).length < r.head.length := by have := head_length_pos r; simp; omega
  have hfields : r.fields ≠ [] ∨ r.body = [] := by
    by_cases h : r.fields = []
    · have := r.body_length
      rw [h] at this
      exact Or.inr (List.length_eq_zero_iff.mp (this.trans (by decide)))
    · exact Or.inl h
  have hseek := seekRecvBuffer_head limit ep (b := []) (c := r.bytes) rfl
    hfields hb hne
  rw [← holding_nil (r := r)]
  by_cases hpass : 0 < limit ∧ limit < r.body.length
  · rw [if_pos hpass] at hseek
    rw [decision, hseek, intended, if_pos hpass]
  · rw [if_neg hpass] at hseek
    exact decision_last hpass hseek rfl

lemma decision_split (hpass : ¬ (0 < limit ∧ limit < r.body.length)) (h0 : 0 < limit)
    (hlt : limit < r.bytes.length) (hbody : r.body ≠ []) :
    decision limit ep {} [r.head, r.body] = .rejected 413 := by
  have hpos := head_length_pos r
  have hhead : r.head ≠ [] := List.ne_nil_of_length_pos (by omega)
  have hlen : r.head.length < r.bytes.length := by
    have := List.length_pos_iff.mpr hbody
    rw [Request.bytes, List.length_append]; omega
  have hseek := seekRecvBuffer_head limit ep (r := r) (b := []) (c := r.head)
    (u := []) (by simp) (Or.inr rfl) (by simp; omega) hhead
  rw [if_neg hpass, List.nil_append, checkUpgrade_incomplete ep hlen] at hseek
  have hmore := seekRecvBuffer_more limit ep (r := r) le_rfl hbody
  rw [← Request.bytes, if_pos ⟨h0, hlt⟩] at hmore
  rw [← holding_nil (r := r), decision, hseek]
  simp only [canReadRequest_holding hlen, Bool.false_eq_true, if_false]
  rw [decision, hmore]

/-- Every way to cut the request leads to the decision on the whole of it, which is made with
the last byte. -/
def Invariant (limit : ℤ) (ep : THttpRequestHeader → Bool) (r : Request) : Prop :=
  ∀ cs : List QByteArray, (∀ c ∈ cs, c ≠ []) → cs.flatten = r.bytes →
    decision limit ep {} cs = decision limit ep {} [r.bytes] ∧
      (decision limit ep {} [r.bytes] = .rejected 413 ∨
        decision limit ep {} [r.bytes] = .readable r.bytes ∨
          ∃ w, decision limit ep {} [r.bytes] = .switched w)

/-- **When the cut does not matter**: every way to cut a request leads to the same decision
exactly when there is no limit, the body is longer than the limit, the whole request is not,
or there is no body. -/
theorem invariant_iff (limit : ℤ) (ep : THttpRequestHeader → Bool) (r : Request) :
    Invariant limit ep r ↔
      limit ≤ 0 ∨ limit < r.body.length ∨ (r.bytes.length : ℤ) ≤ limit ∨ r.body = [] := by
  constructor
  · intro hinv
    by_contra hno
    simp only [not_or] at hno
    obtain ⟨h0, hbody, hlt, hne⟩ := hno
    have hpass : ¬ (0 < limit ∧ limit < r.body.length) := by omega
    have hhead : r.head ≠ [] := List.ne_nil_of_length_pos (by have := head_length_pos r; omega)
    obtain ⟨heq, -⟩ := hinv [r.head, r.body] (by simp [hhead, hne]) (by simp [Request.bytes])
    rw [decision_split hpass (by omega) (by omega) hne, decision_whole,
      intended, if_neg hpass] at heq
    split at heq <;> cases heq
  · intro hfit cs hcs hend
    have hlt := bytes_length_pos r
    have hpos := head_length_pos r
    have hrun := decision_pieces ep hfit (b := []) hcs hend hlt fun h => by
      rw [List.length_nil] at h
      omega
    rw [decision_whole, ← hrun, holding_nil]
    refine ⟨rfl, ?_⟩
    rw [← holding_nil (r := r), hrun, intended]
    split_ifs
    · exact Or.inl rfl
    · split
      · exact Or.inr (Or.inr ⟨_, rfl⟩)
      · exact Or.inr (Or.inl rfl)

/-- A body of four bytes and a limit of ten: the request is rejected when its body comes
after its header. -/
theorem not_invariant :
    ¬ ∀ (limit : ℤ) (ep : THttpRequestHeader → Bool) (r : Request), Invariant limit ep r := by
  intro h
  have := (h 10 (fun _ => false) postRequest [postRequest.head, postRequest.body]
    (by decide) (by decide)).1
  exact absurd this (by decide +kernel)

end TreeFrog.Reception
