import TreeFrog.EpollServer

/-!
The epoll server from the bytes that a client sends to the bytes that it gets: the requests that the
workers execute are those of the client, as long as nothing arrives behind a request that is
complete before it has been taken out.
-/

namespace TreeFrog.EpollServer

open Bytes Wire Pipeline RequestHeader Generate EpollSocket SendBuffer KeepAlive

variable {QHostAddress : Type} {v : Server QHostAddress} {c d : Connection QHostAddress}
  {w : TActionWorker QHostAddress} {i : ℕ}

/-! ### The requests of the client -/

/-- What a buffer is cut into. -/
def cut (v : Server QHostAddress) (buffer : Option QByteArray) :
    List (THttpRequest QHostAddress) :=
  (buffer.bind fun b => generate v.fuel b v.peerAddress).getD []

/-- A complete request that has not been taken out. -/
def complete (http : TEpollHttpSocket) : Option QByteArray :=
  if http.canReadRequest then some http.httpBuffer else none

/-- The requests that workers have found, will find, and will find in what is held. -/
def found (v : Server QHostAddress) (c : Connection QHostAddress) :
    List (THttpRequest QHostAddress) :=
  c.given ++ c.workers.flatMap (fun w => cut v w.httpRequest) ++ cut v (complete c.http)

/-- The socket as a receiver, which takes out a request as soon as it is complete. -/
def receiver (v : Server QHostAddress) : Receiver TEpollHttpSocket QHostAddress :=
  epollServer v.limitBodyBytes v.searchEndpoint v.fuel v.peerAddress

def Tracks (v : Server QHostAddress) (c : Connection QHostAddress) : Prop :=
  ∀ reqs s, (receiver v).run {} c.arrived = .ok (reqs, s) →
    reqs = found v c ∧ s = if c.http.canReadRequest then {} else c.http

lemma Tracks.of_eq (h : Tracks v c) (harrived : d.arrived = c.arrived)
    (hhttp : d.http = c.http) (hfound : found v d = found v c) : Tracks v d := by
  intro reqs s hrun
  rw [harrived] at hrun
  rw [hhttp, hfound]
  exact h reqs s hrun

lemma found_of_eq (hgiven : d.given = c.given) (hhttp : d.http = c.http)
    (hworkers : d.workers.flatMap (fun w => cut v w.httpRequest) =
      c.workers.flatMap fun w => cut v w.httpRequest) : found v d = found v c := by
  rw [found, found, hgiven, hhttp, hworkers]

lemma feed_ok {s s' : TEpollHttpSocket} {p : QByteArray} (h : (receiver v).feed s p = .ok s') :
    ∃ switch, s.seekRecvBuffer v.limitBodyBytes v.searchEndpoint p = .ok (s', switch) := by
  simp only [receiver, epollServer] at h
  split at h
  · cases h
  · rename_i heq
    exact ⟨none, by rw [heq, Except.ok.inj h]⟩
  · rename_i heq
    exact ⟨some .ignored, by rw [heq, Except.ok.inj h]⟩
  · cases h

lemma run_piece {s s' : TEpollHttpSocket} {p : QByteArray}
    {reqs : List (THttpRequest QHostAddress)} (h : (receiver v).run s [p] = .ok (reqs, s')) :
    ∃ http switch, s.seekRecvBuffer v.limitBodyBytes v.searchEndpoint p = .ok (http, switch) ∧
      reqs = cut v (complete http) ∧ s' = if http.canReadRequest then {} else http := by
  rw [Receiver.run] at h
  cases hfeed : (receiver v).feed s p with
  | error e =>
    rw [hfeed] at h
    cases h
  | ok http =>
    obtain ⟨switch, hseek⟩ := feed_ok hfeed
    refine ⟨http, switch, hseek, ?_⟩
    rw [hfeed] at h
    dsimp only at h
    by_cases hcan : http.canReadRequest
    · rw [if_pos (show (receiver v).canReadRequest http = true from hcan)] at h
      have hread : http.readRequest = (http.httpBuffer, {}) := if_pos hcan
      simp only [receiver, epollServer, hread] at h
      cases hgen : generate v.fuel http.httpBuffer v.peerAddress with
      | none =>
        rw [hgen] at h
        cases h
      | some found =>
        rw [hgen] at h
        obtain ⟨rfl, rfl⟩ := Prod.mk.inj (Except.ok.inj h)
        rw [if_pos hcan, complete, if_pos hcan, cut, Option.bind_some, hgen, List.append_nil]
        exact ⟨rfl, rfl⟩
    · rw [if_neg (show ¬ (receiver v).canReadRequest http = true from hcan)] at h
      obtain ⟨rfl, rfl⟩ := Prod.mk.inj (Except.ok.inj h)
      rw [if_neg hcan, complete, if_neg hcan]
      exact ⟨rfl, rfl⟩

lemma Tracks.recv (h : Tracks v c) (hwait : c.http.canReadRequest = false) (p : QByteArray) :
    Tracks v (c.recv v (.piece p)) := by
  rw [Connection.recv]
  split
  · exact h.of_eq rfl rfl rfl
  rename_i http switch hseek
  intro reqs s hrun
  obtain ⟨before, t, after, hbefore, hafter, rfl⟩ := Receiver.run_append hrun
  obtain ⟨rfl, rfl⟩ := h before t hbefore
  rw [hwait] at hafter
  obtain ⟨http', switch', hseek', rfl, rfl⟩ := run_piece hafter
  rw [if_neg Bool.false_ne_true, hseek] at hseek'
  obtain ⟨rfl, -⟩ := Prod.mk.inj (Except.ok.inj hseek')
  refine ⟨?_, rfl⟩
  rw [found, found, complete, hwait, if_neg Bool.false_ne_true, cut, Option.bind_none,
    Option.getD_none, List.append_nil]

lemma Tracks.startWorker (h : Tracks v c) : Tracks v c.startWorker := by
  rw [Connection.startWorker]
  split_ifs with hcan
  · intro reqs s hrun
    have hread : c.http.readRequest = (c.http.httpBuffer, {}) := if_pos hcan
    obtain ⟨rfl, rfl⟩ := h reqs s hrun
    rw [if_pos hcan]
    simp only [hread]
    refine ⟨?_, rfl⟩
    rw [found, found, complete, if_pos hcan]
    simp [complete, TEpollHttpSocket.canReadRequest, cut]
  · exact h.of_eq rfl rfl rfl

lemma Tracks.work (h : Tracks v c) (ht : Threads c) (hi : c.workers[i]? = some w)
    (hstep : c.work v i w = some d) : Tracks v d := by
  obtain ⟨hworkers, rfl⟩ := ht.worker hi
  have hset (w' : TActionWorker QHostAddress) (hw : w'.httpRequest = w.httpRequest) :
      (c.workers.set 0 w').flatMap (fun w => cut v w.httpRequest) =
        c.workers.flatMap fun w => cut v w.httpRequest := by
    rw [hworkers, List.set_cons_zero, List.flatMap_singleton, List.flatMap_singleton, hw]
  obtain ⟨o, -, rfl⟩ | ⟨bytes, reqs, -, hreq, hgen, rfl⟩ | ⟨_, _, -, -, -, -, rfl⟩ |
    ⟨_, _, -, -, -, -, rfl⟩ | ⟨_, _, -, -, -, -, -, rfl⟩ | ⟨_, _, -, -, -, -, rfl⟩ :=
    work_cases hstep
  · cases o <;> exact h.of_eq rfl rfl (found_of_eq rfl rfl (hset _ rfl))
  · refine h.of_eq rfl rfl ?_
    rw [found, found, hworkers, List.set_cons_zero, List.flatMap_singleton,
      List.flatMap_singleton, hreq]
    simp [cut, hgen]
  all_goals exact h.of_eq rfl rfl (found_of_eq rfl rfl (hset _ rfl))

/-- What is not about the requests leaves them alone. -/
structure Unread (c d : Connection QHostAddress) : Prop where
  http : d.http = c.http
  arrived : d.arrived = c.arrived
  given : d.given = c.given
  workers : d.workers = c.workers

lemma unread_step {a : Act} (ha : a.disturbs = false) (hstep : c.step v a = some d) :
    (∃ p, a = .recv (.piece p) ∧ d = c.recv v (.piece p)) ∨ d = c.startWorker ∨
      (∃ i w, c.workers[i]? = some w ∧ c.work v i w = some d) ∨
      (∃ i w, c.workers[i]? = some w ∧ w.finished ∧ d.http = c.http ∧ d.arrived = c.arrived ∧
        d.given = c.given ∧ d.workers = c.workers.eraseIdx i) ∨ Unread c d := by
  cases a with
  | recv received =>
    simp only [Connection.step, Option.ite_none_right_eq_some, Option.some.injEq] at hstep
    obtain ⟨-, rfl⟩ := hstep
    cases received with
    | piece p => exact .inl ⟨p, rfl, rfl⟩
    | again | failed => exact .inr (.inr (.inr (.inr ⟨rfl, rfl, rfl, rfl⟩)))
  | startWorker =>
    simp only [Connection.step, Option.ite_none_right_eq_some, Option.some.injEq] at hstep
    exact .inr (.inl hstep.2.symm)
  | work i =>
    -- what a worker does with the requests is left to `work_cases`
    obtain ⟨w, hi, hstep⟩ := Option.bind_eq_some_iff.mp hstep
    exact .inr (.inr (.inl ⟨i, w, hi, hstep⟩))
  | releaseWorker i =>
    simp only [Connection.step, Option.ite_none_right_eq_some, Option.some.injEq,
      Bool.and_eq_true, Option.any_eq_true] at hstep
    obtain ⟨⟨-, w, hi, hw⟩, rfl⟩ := hstep
    exact .inr (.inr (.inr (.inl ⟨i, w, hi, hw, rfl, rfl, rfl, rfl⟩)))
  | event | keepAliveTimeout | countWorker | setPollIn | close | deleteLater | release =>
    simp only [Connection.step, Option.ite_none_right_eq_some, Option.some.injEq] at hstep
    obtain ⟨-, rfl⟩ := hstep
    exact .inr (.inr (.inr (.inr ⟨rfl, rfl, rfl, rfl⟩)))
  | checkReleased =>
    simp only [Connection.step, Option.ite_none_right_eq_some, Option.some.injEq] at hstep
    obtain ⟨-, rfl⟩ := hstep
    refine .inr (.inr (.inr (.inr ?_)))
    rw [Connection.checkReleased]
    split_ifs <;> exact ⟨rfl, rfl, rfl, rfl⟩
  | count | checkDeleting =>
    refine .inr (.inr (.inr (.inr ?_)))
    simp only [Connection.step] at hstep
    split at hstep
    · obtain rfl := Option.some.inj hstep
      exact ⟨rfl, rfl, rfl, rfl⟩
    · cases hstep
  | send readError sent =>
    refine .inr (.inr (.inr (.inr ?_)))
    simp only [Connection.step] at hstep
    split at hstep
    · rename_i canReceive hl
      obtain ⟨bufs, wire, l, heq, -⟩ := send_frame v c canReceive readError sent
      obtain rfl := Option.some.inj hstep
      rw [heq]
      exact ⟨rfl, rfl, rfl, rfl⟩
    · cases hstep
  | dispatchSendData =>
    refine .inr (.inr (.inr (.inr ?_)))
    simp only [Connection.step] at hstep
    split at hstep
    · rename_i request requests hl hrequests
      split_ifs at hstep
      · obtain rfl := Option.some.inj hstep
        exact ⟨rfl, rfl, rfl, rfl⟩
      · cases request <;> (obtain rfl := Option.some.inj hstep; exact ⟨rfl, rfl, rfl, rfl⟩)
    · cases hstep
  | stop i => cases ha

/-- A piece arrives only where no complete request is held. -/
def Act.waits (c : Connection QHostAddress) : Act → Bool
  | .recv (.piece _) => !c.http.canReadRequest
  | _ => true

/-- The steps of a client that waits. -/
def waits (v : Server QHostAddress) : Connection QHostAddress → List Act → Bool
  | _, [] => true
  | c, a :: acts => a.waits c && (c.step v a).all fun d => waits v d acts

lemma Tracks.step (h : Tracks v c) (ht : Threads c) {a : Act} (hwait : a.waits c)
    (ha : a.disturbs = false) (hstep : c.step v a = some d) : Tracks v d := by
  obtain ⟨p, rfl, rfl⟩ | rfl | ⟨i, w, hi, hwork⟩ |
    ⟨i, w, hi, hw, hhttp, harrived, hgiven, hworkers⟩ | ⟨hhttp, harrived, hgiven, hworkers⟩ :=
    unread_step ha hstep
  · exact h.recv (by simpa [Act.waits] using hwait) p
  · exact h.startWorker
  · exact h.work ht hi hwork
  · obtain ⟨hone, rfl⟩ := ht.worker hi
    simp only [TActionWorker.finished, Bool.and_eq_true, Option.isNone_iff_eq_none] at hw
    refine h.of_eq harrived hhttp (found_of_eq hgiven hhttp ?_)
    rw [hworkers, hone, List.eraseIdx_cons_zero, List.flatMap_singleton, hw.1.1.1]
    rfl
  · exact h.of_eq harrived hhttp (found_of_eq hgiven hhttp (by rw [hworkers]))

lemma tracks_run {acts : List Act} (h : Tracks v c) (hinv : Inv v c) (hwait : waits v c acts)
    (hrun : acts.foldlM (Connection.step v) c = some d)
    (hquiet : ∀ a ∈ acts, a.disturbs = false) : Tracks v d := by
  induction acts generalizing c with
  | nil =>
    obtain rfl := Option.some.inj hrun
    exact h
  | cons a acts ih =>
    obtain ⟨b, hstep, hrun⟩ := Option.bind_eq_some_iff.mp hrun
    obtain ⟨ha, hwait⟩ := Bool.and_eq_true_iff.mp hwait
    rw [hstep] at hwait
    have hquiet' := hquiet a List.mem_cons_self
    have hinv' := hinv.step hquiet' hstep
    exact ih (h.step hinv.threads ha hquiet' hstep) hinv' hwait hrun
      fun x hx => hquiet x (List.mem_cons_of_mem a hx)

lemma tracks_init (v : Server QHostAddress) : Tracks v {} := by
  intro reqs s hrun
  obtain ⟨rfl, rfl⟩ := Prod.mk.inj (Except.ok.inj hrun)
  exact ⟨rfl, rfl⟩

/-- **The responses are those to the client's requests**: of a client that sends `rs` in pieces
that keep to the borders of the requests, and nothing behind a complete request before it has been
taken out, the first requests are executed, in their order and with all they carry, and what the
client gets is a beginning of the responses to these. When all has arrived and nothing is left to
be done, all of them have been executed, and it gets all responses, if the socket is not deleting.
No request asks for a WebSocket or has a body above the limit, which is that of the buffer too, no
file of a response fails to be read, and no worker is stopped. -/
theorem answers_client {acts : List Act} {rs : List Request}
    (hrun : Connection.run v acts = some c) (hquiet : ∀ a ∈ acts, a.disturbs = false)
    (hwait : waits v {} acts)
    (haligned : Aligned (EpollPiece v.limitBodyBytes) (fun _ => True) rs [] c.arrived)
    (hpieces : ∀ p ∈ c.arrived, p ≠ []) (hsent : c.arrived.flatten <+: stream rs)
    (hfuel : rs.length < v.fuel) (hfields : ∀ r ∈ rs, r.fields ≠ [])
    (hlimit : ∀ r ∈ rs, v.limitBodyBytes ≤ 0 ∨ (r.body.length : ℤ) ≤ v.limitBodyBytes) :
    c.given.map contents = (rs.take c.given.length).map (sent v.peerAddress) ∧
      c.wire <+: answers v c.given ∧
      (c.arrived.flatten = stream rs → c.http.canReadRequest = false → c.workers = [] →
        c.sendBuf = [] → c.deleting = false →
          c.given.map contents = rs.map (sent v.peerAddress) ∧ c.wire = answers v c.given) := by
  have hinv := inv_run (inv_init v) hrun hquiet
  have htracks := tracks_run (tracks_init v) (inv_init v) hwait hrun hquiet
  obtain ⟨count, hcount⟩ : ∃ count, v.fuel = count + 1 := Nat.exists_eq_succ_of_ne_zero (by omega)
  have hsound := epollServer_sound v.limitBodyBytes v.searchEndpoint count v.peerAddress
  rw [← hcount] at hsound
  obtain ⟨reqs, s, k, hreqs, hmap, hall⟩ := hsound.run_init haligned
    (fun r hr => ⟨hfields r hr, hlimit r hr⟩) hpieces hsent (by omega)
  obtain ⟨rfl, -⟩ := htracks reqs s hreqs
  obtain ⟨hbegin, hcomplete⟩ := hinv.answers
  refine ⟨?_, hbegin, fun harrived hhttp hworkers hempty hflags => ⟨?_, ?_⟩⟩
  · -- what has been given out is the first part of what is found
    have hlen := congrArg List.length hmap
    rw [List.length_map, List.length_map, List.length_take, found, List.length_append,
      List.length_append] at hlen
    have htake := congrArg (List.take c.given.length) hmap
    rw [found, List.append_assoc, ← List.map_take, List.take_left, ← List.map_take,
      List.take_take, min_eq_left (by omega)] at htake
    exact htake
  · rw [found, hworkers, complete, hhttp, if_neg Bool.false_ne_true] at hmap
    rw [List.take_of_length_le (hall harrived)] at hmap
    simpa [cut] using hmap
  · exact hcomplete hworkers hempty hflags

theorem answers_client_sample :
    ∃ c, Connection.run echo sampleActs = some c ∧ c.wire = ascii "ok \r\n" ∧
      c.given.map contents = ([postRequest, getRequest].take c.given.length).map (sent ()) ∧
      c.wire <+: answers echo c.given := by
  have hrun : (Connection.run echo sampleActs).map (fun c => (c.wire, c.arrived)) =
      some (ascii "ok \r\n", [postRequest.head, postRequest.body, getRequest.bytes]) := by
    decide +kernel
  obtain ⟨c, hc, heq⟩ := Option.map_eq_some_iff.mp hrun
  obtain ⟨hwire, harrived⟩ := Prod.mk.inj heq
  have haligned : Aligned (EpollPiece 0) (fun _ => True) [postRequest, getRequest] []
      [postRequest.head, postRequest.body, getRequest.bytes] := by
    refine .wait (by decide +kernel) ⟨by decide, by decide +kernel⟩ ?_
    refine .read postRequest [] (by decide +kernel) (by decide +kernel)
      ⟨by decide, by decide +kernel⟩ trivial ?_
    exact .read getRequest [] (by decide +kernel) (by decide +kernel)
      ⟨by decide, by decide +kernel⟩ trivial .done
  obtain ⟨hgiven, hbegin, -⟩ := answers_client hc (by decide)
    (by decide +kernel) (harrived ▸ haligned) (by rw [harrived]; decide +kernel)
    (by rw [harrived, List.prefix_iff_eq_take]; decide +kernel) (by decide) (by decide) (by decide)
  exact ⟨c, hc, hwire, hgiven, hbegin⟩

end TreeFrog.EpollServer
