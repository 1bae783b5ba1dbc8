import TreeFrog.EpollSocket
import TreeFrog.ThreadSocket

/-!
The requests of a keep-alive connection, from the pieces in which they arrive.

Both servers read whenever they can, hand out what `generate` finds, and forget what they
hold. So nothing is lost as long as a piece that completes a request ends where a request
ends. What the two servers share is stated once, over a `Receiver`.
-/

namespace TreeFrog.KeepAlive

open TreeFrog.Bytes TreeFrog.MessageHeader TreeFrog.RequestHeader TreeFrog.Generate
open TreeFrog.Wire TreeFrog.Pipeline

/-- Why the requests of a connection are no longer read. -/
inductive Stop
  | clientError (e : ClientErrorException)
  | switched (w : EpollSocket.Switch)
  | hangs
  deriving DecidableEq

/-- A socket: what a piece does to it, when it can be read, and what reading gives. -/
structure Receiver (σ QHostAddress : Type) where
  init : σ
  feed : σ → QByteArray → Except Stop σ
  canReadRequest : σ → Bool
  read : σ → Except Stop (List (THttpRequest QHostAddress) × σ)

variable {σ QHostAddress : Type}

/-- The requests read from a sequence of pieces. -/
def Receiver.run (R : Receiver σ QHostAddress) :
    σ → List QByteArray → Except Stop (List (THttpRequest QHostAddress) × σ)
  | s, [] => .ok ([], s)
  | s, c :: cs =>
    match R.feed s c with
    | .error e => .error e
    | .ok s =>
      if R.canReadRequest s then
        match R.read s with
        | .error e => .error e
        | .ok (reqs, s) =>
          match R.run s cs with
          | .error e => .error e
          | .ok (rest, s) => .ok (reqs ++ rest, s)
      else R.run s cs

/-- The pieces keep to the borders of the requests: a piece that completes the first request
outstanding ends with a request. What else a server needs of a piece and of the requests it
hands out together is `piece` and `batch`. -/
inductive Aligned (piece : Request → QByteArray → QByteArray → Prop)
    (batch : List Request → Prop) : List Request → QByteArray → List QByteArray → Prop
  | done {rs : List Request} {b : QByteArray} : Aligned piece batch rs b []
  | wait {r : Request} {rs : List Request} {b c : QByteArray} {cs : List QByteArray}
      (hlt : (b ++ c).length < r.bytes.length) (hp : piece r b c)
      (hq : Aligned piece batch (r :: rs) (b ++ c) cs) : Aligned piece batch (r :: rs) b (c :: cs)
  | read (r : Request) (rs : List Request) {rest : List Request} {b c : QByteArray}
      {cs : List QByteArray}
      (hend : b ++ c = stream (r :: rs)) (hlen : (b ++ c).length < 2 ^ 31) (hp : piece r b c)
      (hb : batch (r :: rs)) (hq : Aligned piece batch rest [] cs) :
      Aligned piece batch (r :: rs ++ rest) b (c :: cs)

/-- A request with the body that can be got from it. A file is empty by the time the request
is handed out, so that of its bytes only those are left that the multipart parser has read. -/
def contents (req : THttpRequest QHostAddress) :
    THttpRequestHeader × QByteArray × QHostAddress :=
  match req.bodyFile with
  | none => (req.header, req.bodyArray, req.clientAddress)
  | some file =>
    (req.header, if ThreadSocket.isMultipart req.header then file else [], req.clientAddress)

/-- A request that was sent, with all its body. -/
def sent (a : QHostAddress) (r : Request) : THttpRequestHeader × QByteArray × QHostAddress :=
  (r.header, r.body, a)

@[simp] lemma contents_parsed (a : QHostAddress) (r : Request) :
    contents (parsed a r) = sent a r := rfl

/-- What makes a receiver deliver: a piece extends what is held, and reading hands out the
requests that are held. -/
structure Receiver.Sound (R : Receiver σ QHostAddress)
    (piece : Request → QByteArray → QByteArray → Prop) (batch : List Request → Prop)
    (accepted : Request → Prop) (count : ℕ) (a : QHostAddress) where
  Holds : Request → QByteArray → σ → Prop
  nil : ∀ r, Holds r [] R.init
  feed : ∀ {r : Request} {b c t : QByteArray} {s : σ}, accepted r → Holds r b s →
    b.length < r.bytes.length → c ≠ [] → b ++ c <+: r.head ++ t → piece r b c →
      ∃ s', R.feed s c = .ok s' ∧ Holds r (b ++ c) s'
  canReadRequest : ∀ {r : Request} {b : QByteArray} {s : σ}, Holds r b s →
    R.canReadRequest s = decide (r.bytes.length ≤ b.length)
  read : ∀ {r : Request} {rs : List Request} {s : σ}, (∀ x ∈ r :: rs, accepted x) →
    (stream (r :: rs)).length < 2 ^ 31 → (r :: rs).length ≤ count → batch (r :: rs) →
      Holds r (stream (r :: rs)) s →
        ∃ reqs, R.read s = .ok (reqs, R.init) ∧ reqs.map contents = (r :: rs).map (sent a)

variable {R : Receiver σ QHostAddress} {piece : Request → QByteArray → QByteArray → Prop}
  {batch : List Request → Prop} {accepted : Request → Prop} {count : ℕ} {a : QHostAddress}

lemma bytes_le_stream (r : Request) (rs : List Request) :
    r.bytes.length ≤ (stream (r :: rs)).length := by
  rw [stream_cons, Request.bytes]
  simp only [List.length_append]
  omega

lemma Receiver.Sound.run_from (H : R.Sound piece batch accepted count a)
    {rs : List Request} {b : QByteArray} {cs : List QByteArray}
    (h : Aligned piece batch rs b cs) {s : σ}
    (hs : ∀ r ∈ rs.head?, H.Holds r b s ∧ b.length < r.bytes.length)
    (hacc : ∀ r ∈ rs, accepted r) (hcs : ∀ c ∈ cs, c ≠ [])
    (hpre : b ++ cs.flatten <+: stream rs) (hcount : rs.length ≤ count) :
    ∃ reqs s' k, R.run s cs = .ok (reqs, s') ∧ reqs.map contents = (rs.take k).map (sent a) ∧
      (b ++ cs.flatten = stream rs → rs.length ≤ k) := by
  induction h generalizing s with
  | @done rs b =>
    refine ⟨[], s, 0, rfl, rfl, fun hall => ?_⟩
    cases rs with
    | nil => exact le_rfl
    | cons r rs =>
      -- the pieces are not all of the stream: the request at the front is not there
      have := (hs r rfl).2
      have := bytes_le_stream r rs
      rw [List.flatten_nil, List.append_nil] at hall
      rw [hall] at *
      omega
  | @wait r rs b c cs hlt hp _ ih =>
    obtain ⟨hh, hb⟩ := hs r rfl
    obtain ⟨hc, hcs⟩ := List.forall_mem_cons.mp hcs
    rw [List.flatten_cons, ← List.append_assoc] at hpre ⊢
    have hpre' : b ++ c <+: r.head ++ (r.body ++ stream rs) := by
      rw [← stream_cons]
      exact (List.prefix_append _ _).trans hpre
    obtain ⟨s', hfeed, hh'⟩ := H.feed (hacc r (by simp)) hh hb hc hpre' hp
    -- the request is longer than what is held
    have hcan : R.canReadRequest s' = false := by
      rw [H.canReadRequest hh', decide_eq_false_iff_not]; omega
    obtain ⟨reqs, s'', k, hrun, hall⟩ := ih (s := s') (by rintro _ ⟨⟩; exact ⟨hh', hlt⟩) hacc hcs
      hpre hcount
    refine ⟨reqs, s'', k, ?_, hall⟩
    rw [Receiver.run, hfeed]
    simp only [hcan, Bool.false_eq_true, if_false]
    exact hrun
  | @read r rs rest b c cs hend hlen hp hb _ ih =>
    obtain ⟨hh, hlt⟩ := hs r rfl
    obtain ⟨hc, hcs⟩ := List.forall_mem_cons.mp hcs
    have hsplit : stream (r :: rs ++ rest) = stream (r :: rs) ++ stream rest := by
      simp [stream]
    rw [List.flatten_cons, ← List.append_assoc, hend, hsplit] at hpre ⊢
    have hpre' : b ++ c <+: r.head ++ (r.body ++ stream rs) := by rw [hend, stream_cons]
    rw [List.length_append] at hcount
    obtain ⟨s', hfeed, hh'⟩ := H.feed (hacc r (by simp)) hh hlt hc hpre' hp
    -- the requests `r :: rs` end with this piece, and are read at once
    have hcan : R.canReadRequest s' = true := by
      rw [H.canReadRequest hh', decide_eq_true_iff, hend]
      exact bytes_le_stream r rs
    rw [hend] at hh' hlen
    obtain ⟨now, hread, hnow⟩ := H.read (fun x hx => hacc x (List.mem_append_left _ hx))
      hlen (by omega) hb hh'
    -- what follows them is received as by a new socket
    obtain ⟨later, s'', k, hrun, hlater, hall⟩ := ih (s := R.init)
      (fun r' _ => ⟨H.nil r', by
        have := head_length_pos r'
        have := head_length_le r'
        simp only [List.length_nil]
        omega⟩)
      (fun x hx => hacc x (List.mem_append_right _ hx)) hcs
      ((List.prefix_append_right_inj _).mp hpre) (by omega)
    refine ⟨now ++ later, s'', (r :: rs).length + k, ?_, ?_, fun h => ?_⟩
    · rw [Receiver.run, hfeed]
      simp only [hcan, if_true, hread, hrun]
    · rw [List.map_append, hnow, hlater, List.take_length_add_append, List.map_append]
    · have := hall (List.append_cancel_left h)
      rw [List.length_append]
      omega

/-- **A run**: the requests read so far are the first ones that were sent, and all of them
when all bytes have arrived. -/
theorem Receiver.Sound.run_init (H : R.Sound piece batch accepted count a)
    {rs : List Request} {cs : List QByteArray} (h : Aligned piece batch rs [] cs)
    (hacc : ∀ r ∈ rs, accepted r) (hcs : ∀ c ∈ cs, c ≠ [])
    (hpre : cs.flatten <+: stream rs) (hcount : rs.length ≤ count) :
    ∃ reqs s' k, R.run R.init cs = .ok (reqs, s') ∧
      reqs.map contents = (rs.take k).map (sent a) ∧ (cs.flatten = stream rs → rs.length ≤ k) :=
  H.run_from h (fun r _ => ⟨H.nil r, by
    have := head_length_pos r
    have := head_length_le r
    simp only [List.length_nil]
    omega⟩) hacc hcs hpre hcount

lemma Receiver.run_append {s s' : σ} {cs ds : List QByteArray}
    {reqs : List (THttpRequest QHostAddress)} (h : R.run s (cs ++ ds) = .ok (reqs, s')) :
    ∃ before t after, R.run s cs = .ok (before, t) ∧ R.run t ds = .ok (after, s') ∧
      reqs = before ++ after := by
  induction cs generalizing s reqs with
  | nil => exact ⟨[], s, reqs, rfl, h, rfl⟩
  | cons p cs ih =>
    rw [List.cons_append, Receiver.run] at h
    rw [Receiver.run]
    cases hfeed : R.feed s p with
    | error e =>
      rw [hfeed] at h
      cases h
    | ok s₁ =>
      rw [hfeed] at h
      dsimp only at h ⊢
      split_ifs at h ⊢ with hcan
      · cases hread : R.read s₁ with
        | error e =>
          rw [hread] at h
          cases h
        | ok x =>
          rw [hread] at h
          dsimp only at h ⊢
          cases hrest : R.run x.2 (cs ++ ds) with
          | error e =>
            rw [hrest] at h
            cases h
          | ok y =>
            rw [hrest] at h
            obtain ⟨rfl, rfl⟩ := Prod.mk.inj (Except.ok.inj h)
            obtain ⟨before, t, after, hbefore, hafter, heq⟩ := ih hrest
            rw [hbefore]
            exact ⟨x.1 ++ before, t, after, rfl, hafter, by rw [heq, List.append_assoc]⟩
      · exact ih h

/-! ### The two servers -/

/-- The epoll server: the buffer that `readRequest` gives is cut by `generate`. -/
def epollServer (limit : ℤ) (ep : THttpRequestHeader → Bool) (fuel : ℕ) (a : QHostAddress) :
    Receiver EpollSocket.TEpollHttpSocket QHostAddress where
  init := {}
  feed s c :=
    match s.seekRecvBuffer limit ep c with
    | .error e => .error (.clientError e)
    | .ok (s, none) => .ok s
    | .ok (s, some .ignored) => .ok s
    | .ok (_, some w) => .error (.switched w)
  canReadRequest s := s.canReadRequest
  read s :=
    match generate fuel s.readRequest.1 a with
    | none => .error .hangs
    | some reqs => .ok (reqs, s.readRequest.2)

def threadServer (limit : ℕ) (fuel : ℕ) (a : QHostAddress) :
    Receiver ThreadSocket.THttpSocket QHostAddress where
  init := {}
  feed s c :=
    match s.readRequest limit c with
    | .error e => .error (.clientError e)
    | .ok s => .ok s
  canReadRequest s := s.canReadRequest
  read s :=
    match s.read fuel a with
    | none => .error .hangs
    | some r => .ok r

/-- What the epoll server needs of a piece: behind the header the whole buffer is within the
limit, and the piece does not complete a request for another protocol. -/
def EpollPiece (limit : ℤ) (r : Request) (b c : QByteArray) : Prop :=
  (0 < limit → r.head.length ≤ b.length → ((b ++ c).length : ℤ) ≤ limit) ∧
    (r.bytes.length ≤ (b ++ c).length → EpollSocket.isUpgrade r.header = false)

/-- What the thread server needs of the requests it reads together: one that goes to the file
is multipart, and alone. -/
def ThreadBatch : List Request → Prop
  | [] => True
  | r :: rs => ThreadSocket.spills r.header → rs = [] ∧ ThreadSocket.isMultipart r.header

section
open EpollSocket

lemma checkUpgrade_none (ep : THttpRequestHeader → Bool) {r : Request} {u : QByteArray}
    (hf : r.fields ≠ []) (h : r.bytes.length ≤ (r.head ++ u).length → isUpgrade r.header = false) :
    (holding r (r.head ++ u)).checkUpgrade ep = (holding r (r.head ++ u), none) := by
  rcases Nat.lt_or_ge (r.head ++ u).length r.bytes.length with hlt | hge
  · exact checkUpgrade_incomplete ep hlt
  · rw [holding_complete hge, TEpollHttpSocket.checkUpgrade, if_pos rfl]
    simp only [ofBytes_head r u (Or.inl hf), h hge, Bool.false_eq_true, if_false]

/-- The epoll server delivers. -/
def epollServer_sound (limit : ℤ) (ep : THttpRequestHeader → Bool) (count : ℕ)
    (a : QHostAddress) :
    (epollServer limit ep (count + 1) a).Sound (EpollPiece limit) (fun _ => True)
      (fun r => r.fields ≠ [] ∧ (limit ≤ 0 ∨ (r.body.length : ℤ) ≤ limit)) count a where
  Holds r b s := s = holding r b
  nil _ := holding_nil.symm
  feed := by
    rintro r b c t s ⟨hf, hlimit⟩ rfl hlt hc hpre ⟨hfit, hup⟩
    refine ⟨holding r (b ++ c), ?_, rfl⟩
    have hseek : (holding r b).seekRecvBuffer limit ep c = .ok (holding r (b ++ c), none) := by
      rcases Nat.lt_or_ge (b ++ c).length r.head.length with hshort | hlong
      · exact seekRecvBuffer_short limit ep hpre hshort hc
      obtain ⟨u, hu, -⟩ := eq_head_append hpre hlong
      rw [hu] at hup
      have hnone := checkUpgrade_none ep hf hup
      rcases Nat.lt_or_ge b.length r.head.length with hb | hb
      · rw [seekRecvBuffer_head limit ep hu (Or.inl hf) hb hc, if_neg (by omega), hu, hnone]
      · have hle : ¬ (0 < limit ∧ limit < (b ++ c).length) := by
          rintro ⟨h0, h1⟩
          have := hfit h0 hb
          omega
        rw [seekRecvBuffer_more limit ep hb hc, if_neg hle, hu, hnone]
    simp only [epollServer, hseek]
  canReadRequest := by
    rintro r b s rfl
    show TEpollHttpSocket.canReadRequest _ = _
    rcases Nat.lt_or_ge b.length r.bytes.length with hlt | hge
    · rw [canReadRequest_holding hlt, eq_comm, decide_eq_false_iff_not]; omega
    · rw [holding_complete hge, eq_comm, TEpollHttpSocket.canReadRequest]
      simpa using hge
  read := by
    rintro r rs s hacc hlen hcount - rfl
    have hgen := generate_stream (count + 1) a (r :: rs) (fun x hx => (hacc x hx).1) hlen
      (by omega)
    refine ⟨(r :: rs).map (parsed a), ?_, ?_⟩
    · simp only [epollServer, holding_complete (bytes_le_stream r rs), TEpollHttpSocket.readRequest,
        TEpollHttpSocket.canReadRequest, decide_true, if_true, hgen]
      rfl
    · rw [List.map_map]; rfl

end

section
open ThreadSocket

/-- The thread server delivers. -/
def threadServer_sound (limit : ℕ) (count : ℕ) (a : QHostAddress) :
    (threadServer limit (count + 1) a).Sound (fun _ _ _ => True) ThreadBatch
      (fun r => r.fields ≠ [] ∧ (limit = 0 ∨ r.body.length ≤ limit)) count a where
  Holds := ThreadSocket.Holds
  nil := Holds.nil
  feed := by
    rintro r b c t s ⟨hf, hlimit⟩ hh hlt - hpre -
    obtain ⟨s', hread, hh'⟩ := hh.readRequest hf hlimit hlt hpre
    exact ⟨s', by simp only [threadServer, hread], hh'⟩
  canReadRequest hh := hh.canReadRequest
  read := by
    rintro r rs s hacc hlen hcount hbatch hh
    have hcan := hh.canReadRequest
    rw [decide_eq_true (bytes_le_stream r rs)] at hcan
    have hle := bytes_le_stream r rs
    have hhead := head_length_le r
    simp only [threadServer, THttpSocket.read, hcan, if_true]
    rcases hh with h | ⟨-, hs⟩ | ⟨u, -, hs⟩
    · omega
    · -- the buffer holds everything
      have hgen := generate_stream (count + 1) a (r :: rs)
        (fun x hx => (hacc x hx).1) hlen (by omega)
      simp only [Bool.false_eq_true, if_false, hgen, Option.map_some]
      exact ⟨_, rfl, by rw [List.map_map]; rfl⟩
    · -- the file holds the body, and nothing else
      obtain ⟨rfl, hmulti⟩ := hbatch hs
      refine ⟨_, rfl, ?_⟩
      have hbody : (stream [r]).drop r.head.length = r.body := by simp
      simp only [List.map_cons, List.map_nil, contents, THttpRequest.ofFile, hbody,
        ofBytes_head r u (Or.inl (hacc r (by simp)).1), hmulti, if_true, sent]

end

/-- The requests handed out after the pieces `cs` are the first ones that were sent, each with
its body, and all of them when all bytes have arrived. -/
def Delivers (R : Receiver σ QHostAddress) (a : QHostAddress) (rs : List Request)
    (cs : List QByteArray) : Prop :=
  ∃ reqs s' k, R.run R.init cs = .ok (reqs, s') ∧ reqs.map contents = (rs.take k).map (sent a) ∧
    (cs.flatten = stream rs → rs.length ≤ k)

/-- **No request is lost or altered** in either server as long as the pieces keep to the
borders of the requests, and each server is spared what it cannot do: the epoll server a
later piece that takes the buffer beyond the limit and a request for another protocol, the
thread server a request in a file that is not multipart or not alone. -/
theorem delivers_of_aligned (limit : ℤ) (limit' : ℕ) (ep : THttpRequestHeader → Bool)
    (a : QHostAddress) (fuel : ℕ) (rs : List Request) (cs : List QByteArray)
    (hfuel : rs.length < fuel) (hfields : ∀ r ∈ rs, r.fields ≠ [])
    (hlimit : ∀ r ∈ rs, limit ≤ 0 ∨ (r.body.length : ℤ) ≤ limit)
    (hlimit' : ∀ r ∈ rs, limit' = 0 ∨ r.body.length ≤ limit')
    (hcs : ∀ c ∈ cs, c ≠ []) (hpre : cs.flatten <+: stream rs) :
    (Aligned (EpollPiece limit) (fun _ => True) rs [] cs →
        Delivers (epollServer limit ep fuel a) a rs cs) ∧
      (Aligned (fun _ _ _ => True) ThreadBatch rs [] cs →
        Delivers (threadServer limit' fuel a) a rs cs) := by
  obtain ⟨fuel, rfl⟩ := Nat.exists_eq_succ_of_ne_zero (Nat.ne_of_gt (Nat.zero_lt_of_lt hfuel))
  have hcount : rs.length ≤ fuel := Nat.le_of_lt_succ hfuel
  constructor
  · intro h
    exact (epollServer_sound limit ep fuel a).run_init h
      (fun r hr => ⟨hfields r hr, hlimit r hr⟩) hcs hpre hcount
  · intro h
    exact (threadServer_sound limit' fuel a).run_init h
      (fun r hr => ⟨hfields r hr, hlimit' r hr⟩) hcs hpre hcount

/-- Two requests, the first in two pieces. -/
theorem delivers_of_aligned_two :
    Delivers (epollServer 0 (fun _ => false) 3 ()) () [postRequest, getRequest]
        [postRequest.head, postRequest.body, getRequest.bytes] ∧
      Delivers (threadServer 0 3 ()) () [postRequest, getRequest]
        [postRequest.head, postRequest.body, getRequest.bytes] := by
  have h := delivers_of_aligned 0 0 (fun _ => false) () 3 [postRequest, getRequest]
    [postRequest.head, postRequest.body, getRequest.bytes] (by decide)
    (by decide) (by decide) (by decide) (by decide)
    (by rw [List.prefix_iff_eq_take]; decide +kernel)
  constructor
  · refine h.1 (.wait (by decide +kernel) ⟨by decide, by decide +kernel⟩ ?_)
    refine .read postRequest [] (by decide +kernel) (by decide +kernel)
      ⟨by decide, by decide +kernel⟩ trivial ?_
    exact .read getRequest [] (by decide +kernel) (by decide +kernel)
      ⟨by decide, by decide +kernel⟩ trivial .done
  · refine h.2 (.wait (by decide +kernel) trivial ?_)
    refine .read postRequest [] (by decide +kernel) (by decide +kernel)
      trivial (by unfold ThreadBatch; decide +kernel) ?_
    exact .read getRequest [] (by decide +kernel) (by decide +kernel)
      trivial (by unfold ThreadBatch; decide +kernel) .done

/-- One request and the next but for its last byte in one piece: the second request is lost. -/
theorem not_delivers :
    ¬ ∀ (rs : List Request) (cs : List QByteArray), (∀ r ∈ rs, r.fields ≠ []) →
      (∀ c ∈ cs, c ≠ []) → cs.flatten = stream rs →
        Delivers (epollServer 0 (fun _ => false) (rs.length + 1) ()) () rs cs ∧
          Delivers (threadServer 0 (rs.length + 1) ()) () rs cs := by
  intro h
  let cs := [postRequest.bytes ++ getRequest.bytes.dropLast, [LF]]
  obtain ⟨⟨reqs, s', k, hrun, hreqs, hall⟩, -⟩ := h [postRequest, getRequest] cs (by decide)
    (by decide +kernel) (by decide +kernel)
  have hone : ((epollServer 0 (fun _ => false) 3 ()).run {} cs).toOption.map (·.1.length) =
      some 1 := by decide +kernel
  have hk : 2 ≤ k := hall (by decide +kernel)
  have hlen := congrArg List.length hreqs
  rw [List.length_map, List.length_map, List.length_take] at hlen
  have hrun' : (epollServer 0 (fun _ => false) 3 ()).run {} cs = .ok (reqs, s') := hrun
  rw [hrun'] at hone
  simp only [Except.toOption, Option.map_some, Option.some.injEq] at hone
  simp at hlen
  omega

end TreeFrog.KeepAlive
