import Mathlib.Algebra.Order.Group.Nat
import TreeFrog.WebSocketTasks

/-!
The close handshake of a `TAbstractWebSocket`, over every run of those who use it.

The flags `closeSent` and `closing` are set before what they stand for is done, so that a worker
that finds both set may disconnect too early. And only `sendClose` looks at `closeSent`.
-/

namespace TreeFrog.WebSocketClose

open Bytes WebSocketFrame Threads WebSocketTasks TAbstractWebSocket

/-! ### What should hold -/

def isClose : Event → Bool
  | .wrote f => f.opCode = .Close
  | _ => false

def isOnClose : Event → Bool
  | .onClose _ => true
  | _ => false

def isData : Event → Bool
  | .wrote f => f.opCode = .TextFrame ∨ f.opCode = .BinaryFrame
  | _ => false

/-- What a task `SendClose` should find when it disconnects: both flags set, and the Close frame
written and `onClose` called, or the opening refused. -/
structure Complete (log : List Event) (closing closeSent : Bool) : Prop where
  closing : closing = true
  closeSent : closeSent = true
  close : .refused ∈ log ∨ 1 ≤ log.countP isClose
  onClose : .refused ∈ log ∨ 1 ≤ log.countP isOnClose

def Disconnects (log : List Event) : Prop :=
  ∀ pre post closing closeSent, log = pre ++ .disconnected closing closeSent :: post →
    Complete pre closing closeSent

/-- **The close handshake**: one Close frame and one `onClose` at most, and no task `SendClose`
disconnects before it is complete. -/
structure Handshake (log : List Event) : Prop where
  close : log.countP isClose ≤ 1
  onClose : log.countP isOnClose ≤ 1
  disconnects : Disconnects log

/-- No text or binary frame behind a Close frame. -/
def NoDataAfterClose (log : List Event) : Prop :=
  ∀ pre e post, log = pre ++ e :: post → isClose e = true → ∀ d ∈ post, isData d = false

/-! ### When it holds -/

def isWriteClose : Op → Bool
  | .writeClose _ => true
  | _ => false

def isPendingOnClose : Op → Bool
  | .onClose .. => true
  | _ => false

/-- The `i`-th thread is about to do such an operation. -/
def next (c : Config TAbstractWebSocket Op) (i : ℕ) (p : Op → Bool) : Bool :=
  (c.threads[i]?.bind List.head?).any p

/-- A task `SendClose` disconnects only while nobody has set a flag and not yet done what it
stands for. -/
def Settled (c : Config TAbstractWebSocket Op) : Act Outside → Prop
  | .resume i => next c i (fun | .disconnect => true | _ => false) = true →
    c.ops.countP isWriteClose = 0 ∧ c.ops.countP isPendingOnClose = 0
  | .outside _ => True

/-- A task that writes a text or binary frame. -/
def sendsData : Op → Bool
  | .task _ (.SendText _) | .task _ (.SendBinary _) => true
  | .task _ (.SendTextTo _) | .task _ (.SendBinaryTo _) => true
  | _ => false

/-- Text and binary frames are written only while `closeSent` is not set. -/
def Unsent (c : Config TAbstractWebSocket Op) : Act Outside → Prop
  | .resume i => next c i sendsData = true → c.shared.closeSent = false
  | .outside .sendForPublish =>
    c.shared.posted.head?.any (fun p => !p.2) = true → c.shared.closeSent = false
  | .outside _ => True

instance (c : Config TAbstractWebSocket Op) : DecidablePred (Settled c)
  | .resume _ => inferInstanceAs (Decidable (_ = true → _ ∧ _))
  | .outside _ => .isTrue trivial

instance (c : Config TAbstractWebSocket Op) : DecidablePred (Unsent c)
  | .resume _ => inferInstanceAs (Decidable (_ = true → _ = false))
  | .outside .sendForPublish => inferInstanceAs (Decidable (_ = true → _ = false))
  | .outside (.opening ..) | .outside (.receiving _) | .outside (.deleteLater _)
  | .outside (.others _) | .outside (.receiveSystemBus ..) | .outside .timerEvent =>
    .isTrue trivial

/-! ### What an operation does -/

/-- What a task adds to the log. -/
def taskEvent : Task → Option Event
  | .OpenSuccess => some .handshake
  | .OpenError => some .refused
  | .SendText message | .SendTextTo message => some (.wrote (textFrame message))
  | .SendBinary data | .SendBinaryTo data => some (.wrote ⟨.BinaryFrame, data⟩)
  | .SendPing data => some (.wrote ⟨.Ping, data⟩)
  | .SendPong data => some (.wrote ⟨.Pong, data⟩)
  | _ => none

/-- What an operation adds to the log. -/
def event (s : TAbstractWebSocket) : Op → Option Event
  | .task _ t => taskEvent t
  | .onClose code .. => some (.onClose code)
  | .disconnect => some (.disconnected s.closing s.closeSent)
  | .writeClose code => some (.wrote (closeFrame code))
  | _ => none

section

variable (s : TAbstractWebSocket) (rest : List Op)

lemma emit_none (t : TAbstractWebSocket) (h : t.log = s.log) :
    t.log = s.log ++ (none : Option Event).toList := by
  rw [h, Option.toList_none, List.append_nil]

lemma publish_log (own : Bool) (topic : String) (message : Published) :
    (s.publish own topic message).log = s.log := by
  unfold TAbstractWebSocket.publish
  cases s.topics topic <;> rfl

lemma publish_flags (own : Bool) (topic : String) (message : Published) :
    (s.publish own topic message).closing = s.closing ∧
      (s.publish own topic message).closeSent = s.closeSent := by
  unfold TAbstractWebSocket.publish
  cases s.topics topic <;> exact ⟨rfl, rfl⟩

lemma task_log (own : Bool) (t : Task) :
    (t.run s rest own).2.log = s.log ++ (taskEvent t).toList := by
  cases t with
  | PublishText topic m => exact emit_none s _ (publish_log s _ topic _)
  | PublishBinary topic d => exact emit_none s _ (publish_log s _ topic _)
  | SendClose code | SendCloseTo code | Subscribe topic isLocal | Unsubscribe topic
  | UnsubscribeFromAll => exact emit_none s _ rfl
  | _ => rfl

lemma run_log (op : Op) : (op.run s rest).2.log = s.log ++ (event s op).toList := by
  cases op with
  | task own t => exact task_log s rest own t
  | exchangeClosing code tasks last =>
    unfold Op.run
    cases s.closing <;> exact emit_none s _ rfl
  | exchangeCloseSent code =>
    unfold Op.run
    cases s.closeSent <;> exact emit_none s _ rfl
  | onClose code tasks last => cases tasks <;> rfl
  | disconnect | writeClose code => rfl
  | loadCloseSent code | storeCloseSent | refuse => exact emit_none s _ rfl

lemma event_isClose (op : Op) : (event s op).any isClose = isWriteClose op := by
  cases op with
  | task own t => cases t <;> rfl
  | _ => rfl

lemma event_isOnClose (op : Op) : (event s op).any isOnClose = isPendingOnClose op := by
  cases op with
  | task own t => cases t <;> rfl
  | _ => rfl

lemma event_isData (op : Op) : (event s op).any isData = sendsData op := by
  cases op with
  | task own t => cases t <;> rfl
  | _ => rfl

lemma task_cases (own : Bool) (t : Task) :
    ((t.run s rest own).2.closing = s.closing ∧ (t.run s rest own).2.closeSent = s.closeSent ∧
      (t.run s rest own).1 = rest) ∨
    t.run s rest own = ([.storeCloseSent], { s with closing := true }.emit .refused) ∨
    (∃ code, s.closing = true ∧ t.run s rest own = (.loadCloseSent code :: rest, s)) ∨
    ∃ code, t.run s rest own = (.exchangeCloseSent code :: rest, s) := by
  cases t with
  | OpenError => exact .inr (.inl rfl)
  | SendClose code =>
    cases hclosing : s.closing with
    | false => exact .inr (.inr (.inr ⟨code, by simp only [Task.run, hclosing]; rfl⟩))
    | true => exact .inr (.inr (.inl ⟨code, rfl, by simp only [Task.run, hclosing]; rfl⟩))
  | SendCloseTo code => exact .inr (.inr (.inr ⟨code, rfl⟩))
  | PublishText topic m => exact .inl ⟨(publish_flags s _ _ _).1, (publish_flags s _ _ _).2, rfl⟩
  | PublishBinary topic d => exact .inl ⟨(publish_flags s _ _ _).1, (publish_flags s _ _ _).2, rfl⟩
  | _ => exact .inl ⟨rfl, rfl, rfl⟩

end

/-! ### The invariant -/

/-- What an operation relies on when its turn comes. -/
def Ready (s : TAbstractWebSocket) : Op → Prop
  | .loadCloseSent _ => s.closing = true
  | .disconnect => s.closing = true ∧ s.closeSent = true
  | .storeCloseSent => .refused ∈ s.log
  | _ => True

/-- Both flags with what they stand for. -/
structure Inv (s : TAbstractWebSocket) (ops : List Op) : Prop where
  sent : Once s.closeSent (ops.countP isWriteClose) (s.log.countP isClose) (.refused ∈ s.log)
  handled : Once s.closing (ops.countP isPendingOnClose) (s.log.countP isOnClose)
    (.refused ∈ s.log)
  ready : ∀ op ∈ ops, Ready s op

lemma Ready.mono {s t : TAbstractWebSocket} {op : Op} (h : Ready s op)
    (hclosing : s.closing = true → t.closing = true)
    (hsent : s.closeSent = true → t.closeSent = true) (hlog : s.log ⊆ t.log) : Ready t op := by
  cases op with
  | loadCloseSent code => exact hclosing h
  | disconnect => exact ⟨hclosing h.1, hsent h.2⟩
  | storeCloseSent => exact hlog h
  | _ => trivial

lemma inv_perm (s : TAbstractWebSocket) (k l : List Op) (hkl : k.Perm l) (h : Inv s k) :
    Inv s l where
  sent := hkl.countP_eq isWriteClose ▸ h.sent
  handled := hkl.countP_eq isPendingOnClose ▸ h.handled
  ready op hop := h.ready op (hkl.mem_iff.mpr hop)

/-- An operation that nobody has to wait for. -/
def isPlain (op : Op) : Bool := !isWriteClose op && !isPendingOnClose op

lemma countP_plain {l : List Op} (h : ∀ op ∈ l, isPlain op = true) :
    l.countP isWriteClose = 0 ∧ l.countP isPendingOnClose = 0 := by
  constructor
  all_goals
    refine List.countP_eq_zero.mpr fun op hop => ?_
    have hplain := h op hop
    simp only [isPlain, Bool.and_eq_true, Bool.not_eq_true'] at hplain
    simp [hplain]

lemma countP_toList (e : Option Event) (p : Event → Bool) :
    e.toList.countP p = (e.any p).toNat := by
  cases e with
  | none => rfl
  | some e =>
    rw [Option.toList_some, List.countP_singleton, Option.any_some]
    cases p e <;> rfl

section

variable {s : TAbstractWebSocket} {rest others : List Op} {op : Op}

lemma countP_isClose_run : (op.run s rest).2.log.countP isClose =
    s.log.countP isClose + (isWriteClose op).toNat := by
  rw [run_log, List.countP_append, countP_toList, event_isClose]

lemma countP_isOnClose_run : (op.run s rest).2.log.countP isOnClose =
    s.log.countP isOnClose + (isPendingOnClose op).toNat := by
  rw [run_log, List.countP_append, countP_toList, event_isOnClose]

lemma log_subset_run : s.log ⊆ (op.run s rest).2.log := by
  rw [run_log]
  exact List.subset_append_left _ _

lemma countP_cons_toNat (p : Op → Bool) (l : List Op) :
    (op :: l).countP p = (p op).toNat + l.countP p := by
  rw [List.countP_cons, Nat.add_comm]
  cases p op <;> rfl

lemma Inv.run_same (h : Inv s (op :: (rest ++ others)))
    (hclosing : (op.run s rest).2.closing = s.closing)
    (hsent : (op.run s rest).2.closeSent = s.closeSent)
    (new : List Op) (hops : (op.run s rest).1 = new ++ rest)
    (hnew : ∀ o ∈ new, isPlain o = true ∧ Ready s o) :
    Inv (op.run s rest).2 ((op.run s rest).1 ++ others) := by
  obtain ⟨hnewclose, hnewonclose⟩ := countP_plain fun o ho => (hnew o ho).1
  have hlog : s.log ⊆ (op.run s rest).2.log := log_subset_run
  rw [hops, List.append_assoc]
  refine ⟨?_, ?_, fun o ho => ?_⟩
  · rw [hsent]
    refine (h.sent.act ?_).weaken fun hr => hlog hr
    rw [countP_isClose_run, List.countP_append, hnewclose, countP_cons_toNat]
    omega
  · rw [hclosing]
    refine (h.handled.act ?_).weaken fun hr => hlog hr
    rw [countP_isOnClose_run, List.countP_append, hnewonclose, countP_cons_toNat]
    omega
  · have hs : Ready s o := (List.mem_append.mp ho).elim (fun ho => (hnew o ho).2)
      fun ho => h.ready o (List.mem_cons_of_mem _ ho)
    exact hs.mono (fun hf => hclosing ▸ hf) (fun hf => hsent ▸ hf) hlog

lemma Inv.run_stay (h : Inv s (op :: (rest ++ others))) {new : List Op}
    (hrun : op.run s rest = (new ++ rest, s)) (hnew : ∀ o ∈ new, isPlain o = true ∧ Ready s o) :
    Inv (op.run s rest).2 ((op.run s rest).1 ++ others) :=
  h.run_same (by rw [hrun]) (by rw [hrun]) new (by rw [hrun]) hnew

lemma Inv.exchangeClosing {code : ℕ} {tasks : Option (List Task)} {last : List Task}
    (h : Inv s (.exchangeClosing code tasks last :: (rest ++ others))) (hs : s.closing = false) :
    Inv { s with closing := true } (.onClose code tasks last :: (rest ++ others)) := by
  have hhandled := h.handled
  rw [hs] at hhandled
  refine ⟨h.sent.act ?_, ?_, fun o ho => ?_⟩
  · rw [countP_cons_toNat, countP_cons_toNat]
    rfl
  · rw [countP_cons_toNat, Nat.add_comm] at hhandled ⊢
    exact hhandled.exchange
  · obtain rfl | ho := List.mem_cons.mp ho
    · trivial
    · exact (h.ready o (List.mem_cons_of_mem _ ho)).mono (fun _ => rfl) id fun _ he => he

lemma Inv.exchangeCloseSent {code : ℤ}
    (h : Inv s (.exchangeCloseSent code :: (rest ++ others))) (hs : s.closeSent = false) :
    Inv { s with closeSent := true } (.writeClose code :: (rest ++ others)) := by
  have hsent := h.sent
  rw [hs] at hsent
  refine ⟨?_, h.handled.act ?_, fun o ho => ?_⟩
  · rw [countP_cons_toNat, Nat.add_comm] at hsent ⊢
    exact hsent.exchange
  · rw [countP_cons_toNat, countP_cons_toNat]
    rfl
  · obtain rfl | ho := List.mem_cons.mp ho
    · trivial
    · exact (h.ready o (List.mem_cons_of_mem _ ho)).mono id (fun _ => rfl) fun _ he => he

lemma countP_others_le (p : Op → Bool) :
    others.countP p ≤ (op :: (rest ++ others)).countP p :=
  ((List.sublist_append_right rest others).trans (List.sublist_cons_self op _)).countP_le

/-- The refusal of the opening sets `closing`, and the tasks behind it are skipped. -/
lemma Inv.openError (h : Inv s (op :: (rest ++ others))) :
    Inv ({ s with closing := true }.emit .refused) (.storeCloseSent :: others) := by
  have hrefused : Event.refused ∈ s.log ++ [.refused] := List.mem_append_right _ List.mem_cons_self
  have hsub : s.log ⊆ s.log ++ [Event.refused] := List.subset_append_left _ _
  have hclose : (s.log ++ [Event.refused]).countP isClose = s.log.countP isClose := by
    rw [List.countP_append]
    rfl
  have honclose : (s.log ++ [Event.refused]).countP isOnClose = s.log.countP isOnClose := by
    rw [List.countP_append]
    rfl
  refine ⟨?_, ?_, fun o ho => ?_⟩
  · change Once s.closeSent _ ((s.log ++ [Event.refused]).countP isClose) _
    rw [hclose, countP_cons_toNat]
    exact (h.sent.weaken fun hr => hsub hr).forced id
      ((Nat.zero_add _).trans_le (countP_others_le _)) hrefused
  · change Once true _ ((s.log ++ [Event.refused]).countP isOnClose) _
    rw [honclose, countP_cons_toNat]
    exact (h.handled.weaken fun hr => hsub hr).forced (fun _ => rfl)
      ((Nat.zero_add _).trans_le (countP_others_le _)) hrefused
  · obtain rfl | ho := List.mem_cons.mp ho
    · exact hrefused
    · exact (h.ready o (List.mem_cons_of_mem _ (List.mem_append_right _ ho))).mono
        (fun _ => rfl) id hsub

lemma Inv.storeCloseSent (h : Inv s (.storeCloseSent :: (rest ++ others))) :
    Inv { s with closeSent := true } (.refuse :: others) := by
  have hrefused : Event.refused ∈ s.log := h.ready _ List.mem_cons_self
  refine ⟨?_, ?_, fun o ho => ?_⟩
  · rw [countP_cons_toNat]
    exact h.sent.forced (fun _ => rfl) ((Nat.zero_add _).trans_le (countP_others_le _)) hrefused
  · rw [countP_cons_toNat]
    exact h.handled.forced id ((Nat.zero_add _).trans_le (countP_others_le _)) hrefused
  · obtain rfl | ho := List.mem_cons.mp ho
    · trivial
    · exact (h.ready o (List.mem_cons_of_mem _ (List.mem_append_right _ ho))).mono id
        (fun _ => rfl) fun _ he => he

lemma ready_task (s : TAbstractWebSocket) (own : Bool) (ts : List Task) :
    ∀ o ∈ ts.map (Op.task own), isPlain o = true ∧ Ready s o := by
  intro o ho
  obtain ⟨t, -, rfl⟩ := List.mem_map.mp ho
  exact ⟨rfl, trivial⟩

lemma inv_run (h : Inv s (op :: (rest ++ others))) :
    Inv (op.run s rest).2 ((op.run s rest).1 ++ others) := by
  cases op with
  | task own t =>
    obtain ⟨hclosing, hsent, hops⟩ | hrun | ⟨code, hclosing, hrun⟩ | ⟨code, hrun⟩ :=
      task_cases s rest own t
    · -- neither flag changes
      exact h.run_same hclosing hsent [] hops (List.forall_mem_nil _)
    · -- the refusal of the opening handshake
      change Inv (t.run s rest own).2 ((t.run s rest own).1 ++ others)
      rw [hrun]
      exact h.openError
    · have hnew : (t.run s rest own) = ([.loadCloseSent code] ++ rest, s) := hrun
      exact h.run_stay hnew (List.forall_mem_singleton.mpr ⟨rfl, hclosing⟩)
    · have hnew : (t.run s rest own) = ([.exchangeCloseSent code] ++ rest, s) := hrun
      exact h.run_stay hnew (List.forall_mem_singleton.mpr ⟨rfl, trivial⟩)
  | exchangeClosing code tasks last =>
    cases hclosing : s.closing with
    | false =>
      have hrun : Op.run s rest (.exchangeClosing code tasks last) =
          (.onClose code tasks last :: rest, { s with closing := true }) :=
        if_neg (ne_true_of_eq_false hclosing)
      rw [hrun]
      -- this thread has set `closing`
      exact h.exchangeClosing hclosing
    -- another one had, and only the last tasks are left
    | true => exact h.run_stay (if_pos hclosing) (ready_task s true last)
  | onClose code tasks last =>
    cases tasks with
    | none => exact h.run_same rfl rfl [] rfl (List.forall_mem_nil _)
    | some tasks =>
      exact h.run_same rfl rfl ((tasks ++ .UnsubscribeFromAll :: last).map (.task true)) rfl
        (ready_task s true _)
  | loadCloseSent code =>
    have hclosing : s.closing = true := h.ready _ List.mem_cons_self
    cases hsent : s.closeSent with
    | false =>
      have hrun : Op.run s rest (.loadCloseSent code) = ([.exchangeCloseSent code] ++ rest, s) := by
        simp only [Op.run, hsent]
        rfl
      exact h.run_stay hrun (List.forall_mem_singleton.mpr ⟨rfl, trivial⟩)
    | true =>
      have hrun : Op.run s rest (.loadCloseSent code) = ([.disconnect] ++ rest, s) := by
        simp only [Op.run, hsent]
        rfl
      exact h.run_stay hrun (List.forall_mem_singleton.mpr ⟨rfl, hclosing, hsent⟩)
  | disconnect => exact h.run_same rfl rfl [] rfl (List.forall_mem_nil _)
  | exchangeCloseSent code =>
    cases hsent : s.closeSent with
    | false =>
      have hrun : Op.run s rest (.exchangeCloseSent code) =
          (.writeClose code :: rest, { s with closeSent := true }) :=
        if_neg (ne_true_of_eq_false hsent)
      rw [hrun]
      exact h.exchangeCloseSent hsent
    | true =>
      have hrun : Op.run s rest (.exchangeCloseSent code) = ([] ++ rest, s) := if_pos hsent
      exact h.run_stay hrun (List.forall_mem_nil _)
  | writeClose code => exact h.run_same rfl rfl [] rfl (List.forall_mem_nil _)
  | storeCloseSent => exact h.storeCloseSent
  | refuse => exact h.run_same rfl rfl [] rfl (List.forall_mem_nil _)

end

/-! ### What comes from outside -/

/-- What it adds to the log. -/
def outsideEvent (s : TAbstractWebSocket) : Outside → Option Event
  | .sendForPublish =>
    match s.posted with
    | (.text text, false) :: _ => some (.wrote (textFrame text))
    | (.binary binary, false) :: _ => some (.wrote ⟨.BinaryFrame, binary⟩)
    | _ => none
  | .timerEvent => some (.wrote ⟨.Ping, []⟩)
  | _ => none

section

variable (s : TAbstractWebSocket)

lemma happen_log (e : Outside) : (e.happen s).2.log = s.log ++ (outsideEvent s e).toList := by
  cases e with
  | opening accepted tasks =>
    obtain _ | _ | _ := accepted <;> exact emit_none s _ rfl
  | receiving ms => exact emit_none s _ rfl
  | deleteLater tasks =>
    unfold Outside.happen
    cases s.deleting <;> exact emit_none s _ rfl
  | others tasks => exact emit_none s _ rfl
  | receiveSystemBus topic message => exact emit_none s _ (publish_log s _ _ _)
  | sendForPublish =>
    unfold Outside.happen outsideEvent
    obtain _ | ⟨⟨_ | _, _ | _⟩, posted⟩ := s.posted
    · exact emit_none s _ rfl
    · rfl
    · exact emit_none s _ rfl
    · rfl
    · exact emit_none s _ rfl
  | timerEvent => rfl

lemma happen_flags (e : Outside) :
    (e.happen s).2.closing = s.closing ∧ (e.happen s).2.closeSent = s.closeSent := by
  cases e with
  | opening accepted tasks => obtain _ | _ | _ := accepted <;> exact ⟨rfl, rfl⟩
  | deleteLater tasks =>
    unfold Outside.happen
    cases s.deleting <;> exact ⟨rfl, rfl⟩
  | receiveSystemBus topic message => exact publish_flags s _ _ _
  | sendForPublish =>
    unfold Outside.happen
    obtain _ | ⟨⟨_ | _, _ | _⟩, posted⟩ := s.posted <;> exact ⟨rfl, rfl⟩
  | _ => exact ⟨rfl, rfl⟩

lemma ready_execute (m : Message) : ∀ o ∈ m.execute, isPlain o = true ∧ Ready s o := by
  obtain ⟨opcode, payload, tasks⟩ := m
  cases opcode with
  | TextFrame | BinaryFrame | Ping | Pong => exact ready_task s true _
  | Close => exact List.forall_mem_singleton.mpr ⟨rfl, trivial⟩
  | _ => exact List.forall_mem_nil _

/-- New threads begin with plain operations. -/
lemma ready_happen (e : Outside) : ∀ o ∈ (e.happen s).1.flatten, isPlain o = true ∧ Ready s o := by
  have hone {l : List Op} (h : ∀ o ∈ l, isPlain o = true ∧ Ready s o) :
      ∀ o ∈ [l].flatten, isPlain o = true ∧ Ready s o := by
    rwa [List.flatten_singleton]
  cases e with
  | opening accepted tasks =>
    obtain _ | _ | _ := accepted
    · exact List.forall_mem_nil _
    · exact hone (ready_task s true _)
    · exact hone (ready_task s true _)
  | receiving ms =>
    refine hone fun o ho => ?_
    obtain ⟨m, -, hm⟩ := List.mem_flatMap.mp ho
    exact ready_execute s m o hm
  | deleteLater tasks =>
    unfold Outside.happen
    cases s.deleting with
    | true => exact List.forall_mem_nil _
    | false =>
      cases s.closing with
      | true => exact List.forall_mem_nil _
      | false => exact hone (List.forall_mem_singleton.mpr ⟨rfl, trivial⟩)
  | others tasks => exact hone (ready_task s false _)
  | sendForPublish =>
    unfold Outside.happen
    obtain _ | ⟨p, posted⟩ := s.posted <;> exact List.forall_mem_nil _
  | receiveSystemBus topic message => exact List.forall_mem_nil _
  | timerEvent => exact List.forall_mem_nil _

lemma outsideEvent_plain (e : Outside) :
    (outsideEvent s e).any isClose = false ∧ (outsideEvent s e).any isOnClose = false := by
  cases e with
  | sendForPublish =>
    unfold outsideEvent
    obtain _ | ⟨⟨_ | _, _ | _⟩, posted⟩ := s.posted <;> exact ⟨rfl, rfl⟩
  | _ => exact ⟨rfl, rfl⟩

lemma outsideEvent_eq (e : Outside) :
    outsideEvent s e = none ∨ ∃ f, outsideEvent s e = some (.wrote f) := by
  cases e with
  | sendForPublish =>
    unfold outsideEvent
    obtain _ | ⟨⟨_ | _, _ | _⟩, posted⟩ := s.posted
    · exact .inl rfl
    · exact .inr ⟨_, rfl⟩
    · exact .inl rfl
    · exact .inr ⟨_, rfl⟩
    · exact .inl rfl
  | timerEvent => exact .inr ⟨_, rfl⟩
  | _ => exact .inl rfl

lemma outsideEvent_isData (e : Outside) (h : (outsideEvent s e).any isData = true) :
    e = .sendForPublish ∧ s.posted.head?.any (fun p => !p.2) = true := by
  cases e with
  | sendForPublish =>
    unfold outsideEvent at h
    revert h
    obtain _ | ⟨⟨_ | _, _ | _⟩, posted⟩ := s.posted
    · exact nofun
    · exact fun _ => ⟨rfl, rfl⟩
    · exact nofun
    · exact fun _ => ⟨rfl, rfl⟩
    · exact nofun
  | _ => exact absurd h nofun

lemma inv_happen (e : Outside) {ops : List Op} (h : Inv s ops) :
    Inv (e.happen s).2 (ops ++ (e.happen s).1.flatten) := by
  obtain ⟨hclosing, hsent⟩ := happen_flags s e
  obtain ⟨hnewclose, hnewonclose⟩ := countP_plain fun o ho => (ready_happen s e o ho).1
  obtain ⟨hclose, honclose⟩ := outsideEvent_plain s e
  have hlog : s.log ⊆ (e.happen s).2.log := by
    rw [happen_log]
    exact List.subset_append_left _ _
  refine ⟨?_, ?_, fun o ho => ?_⟩
  · rw [hsent]
    refine (h.sent.act ?_).weaken fun hr => hlog hr
    rw [happen_log, List.countP_append, List.countP_append, countP_toList, hclose, hnewclose]
    rfl
  · rw [hclosing]
    refine (h.handled.act ?_).weaken fun hr => hlog hr
    rw [happen_log, List.countP_append, List.countP_append, countP_toList, honclose, hnewonclose]
    rfl
  · have hs : Ready s o := (List.mem_append.mp ho).elim (h.ready o)
      fun ho => (ready_happen s e o ho).2
    exact hs.mono (fun hf => hclosing ▸ hf) (fun hf => hsent ▸ hf) hlog

end

/-! ### The log -/

lemma split_append {log pre post : List Event} {e : Option Event} {x : Event}
    (h : log ++ e.toList = pre ++ x :: post) :
    (∃ post', log = pre ++ x :: post' ∧ post = post' ++ e.toList) ∨
      (e = some x ∧ pre = log ∧ post = []) := by
  cases e with
  | none =>
    rw [Option.toList_none, List.append_nil] at h
    exact .inl ⟨post, h, by simp⟩
  | some y =>
    rw [Option.toList_some] at h
    obtain rfl | ⟨post', z, rfl⟩ := List.eq_nil_or_concat post
    · obtain ⟨rfl, hy⟩ := List.append_inj' h rfl
      exact .inr ⟨congrArg some (List.cons.inj hy).1, rfl, rfl⟩
    · rw [List.concat_eq_append, ← List.cons_append, ← List.append_assoc] at h
      obtain ⟨hlog, hz⟩ := List.append_inj' h rfl
      exact .inl ⟨post', hlog, by rw [List.concat_eq_append, ← hz, Option.toList_some]⟩

lemma Disconnects.append {log : List Event} {e : Option Event} (h : Disconnects log)
    (he : ∀ closing closeSent, e = some (.disconnected closing closeSent) →
      Complete log closing closeSent) : Disconnects (log ++ e.toList) := by
  intro pre post closing closeSent hsplit
  obtain ⟨post', hlog, -⟩ | ⟨hx, rfl, -⟩ := split_append hsplit
  · exact h pre post' closing closeSent hlog
  · exact he closing closeSent hx

lemma NoDataAfterClose.append {log : List Event} {e : Option Event} (h : NoDataAfterClose log)
    (he : e.any isData = true → log.countP isClose = 0) : NoDataAfterClose (log ++ e.toList) := by
  intro pre x post hsplit hx d hd
  obtain ⟨post', hlog, rfl⟩ | ⟨-, -, rfl⟩ := split_append hsplit
  · obtain hd | hd := List.mem_append.mp hd
    · exact h pre x post' hlog hx d hd
    · obtain rfl := Option.mem_toList.mp hd
      by_contra hdata
      have hzero := he (by simpa using hdata)
      exact (List.countP_eq_zero.mp hzero x (hlog ▸ by simp)) hx
  · cases hd

/-! ### Runs -/

lemma next_of_some {c : Config TAbstractWebSocket Op} {i : ℕ} {op : Op} {rest : List Op}
    (h : c.threads[i]? = some (op :: rest)) (p : Op → Bool) : next c i p = p op := by
  rw [next, h]
  rfl

lemma inv_start : Inv start.shared start.ops := ⟨.start, .start, List.forall_mem_nil _⟩

lemma inv_of_reaches {cond : Config TAbstractWebSocket Op → Act Outside → Prop}
    {c : Config TAbstractWebSocket Op} (h : sockets.Reaches cond start c) :
    Inv c.shared c.ops := by
  refine invariant inv_perm ?_ ?_ h inv_start
  · intro c i op rest others _ _ _ hinv
    exact inv_run hinv
  · intro c e _ hinv
    exact inv_happen c.shared e hinv

/-- **At most once**: in every run, whatever the order of its steps, there is one Close frame and
one call of `onClose` at most. -/
theorem atMostOnce {c : Config TAbstractWebSocket Op}
    (h : sockets.Reaches (fun _ _ => True) start c) :
    c.shared.log.countP isClose ≤ 1 ∧ c.shared.log.countP isOnClose ≤ 1 :=
  ⟨(inv_of_reaches h).sent.done_le, (inv_of_reaches h).handled.done_le⟩

lemma disconnects_run {s : TAbstractWebSocket} {rest : List Op} {op : Op}
    (hready : Ready s op) (hlog : Disconnects s.log)
    (hsettled : op = .disconnect → Complete s.log s.closing s.closeSent) :
    Disconnects (op.run s rest).2.log := by
  rw [run_log]
  refine hlog.append fun closing closeSent he => ?_
  cases op with
  | disconnect =>
    obtain ⟨rfl, rfl⟩ := Event.disconnected.inj (Option.some.inj he)
    exact hsettled rfl
  | task own t => cases t <;> cases he
  | _ => cases he

lemma disconnects_happen {s : TAbstractWebSocket} (e : Outside) (hlog : Disconnects s.log) :
    Disconnects (e.happen s).2.log := by
  rw [happen_log]
  refine hlog.append fun closing closeSent he => ?_
  obtain hnone | ⟨f, hwrote⟩ := outsideEvent_eq s e
  · exact absurd (hnone.symm.trans he) nofun
  · exact absurd (hwrote.symm.trans he) (by simp)

lemma Inv.complete {s : TAbstractWebSocket} {ops : List Op} (h : Inv s ops)
    (hready : Ready s .disconnect) (hclose : ops.countP isWriteClose = 0)
    (honclose : ops.countP isPendingOnClose = 0) : Complete s.log s.closing s.closeSent := by
  obtain ⟨hclosing, hsent⟩ := hready
  have hs := h.sent
  have hh := h.handled
  rw [hsent, hclose] at hs
  rw [hclosing, honclose] at hh
  exact ⟨hclosing, hsent, hs.done_pos, hh.done_pos⟩

/-- **The close handshake** is kept in every run in which the tasks `SendClose` disconnect only
while no other worker has set a flag and not yet written the frame or called `onClose`. -/
theorem handshake_of_settled {c : Config TAbstractWebSocket Op}
    (h : sockets.Reaches Settled start c) : Handshake c.shared.log := by
  have hinv : Inv c.shared c.ops := inv_of_reaches h
  refine ⟨hinv.sent.done_le, hinv.handled.done_le, ?_⟩
  suffices hboth : Inv c.shared c.ops ∧ Disconnects c.shared.log from hboth.2
  refine @invariant _ _ _ sockets _ _ _ (fun s ops => Inv s ops ∧ Disconnects s.log) ?_ ?_ ?_ h
    ⟨inv_start, fun pre post _ _ hnil => by simp [start] at hnil⟩
  · exact fun s k l hkl hk => ⟨inv_perm s k l hkl hk.1, hk.2⟩
  · intro c i op rest others hcond hi hperm hk
    refine ⟨inv_run hk.1, disconnects_run (hk.1.ready op List.mem_cons_self) hk.2 ?_⟩
    rintro rfl
    obtain ⟨hclose, honclose⟩ := hcond (by rw [next_of_some hi])
    exact hk.1.complete (hk.1.ready _ List.mem_cons_self) (hperm.countP_eq _ ▸ hclose)
      (hperm.countP_eq _ ▸ honclose)
  · exact fun c e _ hk => ⟨inv_happen c.shared e hk.1, disconnects_happen e hk.2⟩

/-- The endpoint closes, the peer answers, and its worker disconnects. -/
def closeAndAnswer : List (Act Outside) :=
  [.outside (.receiving [⟨.TextFrame, [], some [.SendClose 1000]⟩]),
    .resume 0, .resume 0, .resume 0,
    .outside (.receiving [⟨.Close, [], some []⟩]),
    .resume 1, .resume 1, .resume 1, .resume 1, .resume 1, .resume 1]

theorem handshake_of_settled_answer : ∃ c : Config TAbstractWebSocket Op,
    sockets.Reaches Settled start c ∧
    c.shared.log = [.wrote (closeFrame 1000), .onClose 1001, .disconnected true true] ∧
    Handshake c.shared.log := by
  obtain ⟨c, hc, hlog⟩ : ∃ c, sockets.follow closeAndAnswer start = some c ∧
      c.shared.log = [.wrote (closeFrame 1000), .onClose 1001, .disconnected true true] :=
    ⟨_, rfl, rfl⟩
  have hreach : sockets.Reaches Settled start c := System.reaches_follow hc (by decide)
  exact ⟨c, hreach, hlog, handshake_of_settled hreach⟩

/-- The endpoint of another socket closes this one: `closeSent` is set. Before the frame is
written the peer's Close comes in, and its worker finds both flags set. -/
def closedByAnother : List (Act Outside) :=
  [.outside (.others [.SendCloseTo 1000]), .resume 0, .resume 0,
    .outside (.receiving [⟨.Close, [], some []⟩]),
    .resume 1, .resume 1, .resume 1, .resume 1, .resume 1, .resume 1]

/-- The worker disconnects before the Close frame is written. -/
theorem not_handshake_closedByAnother : ∃ c : Config TAbstractWebSocket Op,
    sockets.Reaches (fun _ _ => True) start c ∧
    c.shared.log = [.onClose 1001, .disconnected true true] ∧ ¬ Handshake c.shared.log := by
  obtain ⟨c, hc, hlog⟩ : ∃ c, sockets.follow closedByAnother start = some c ∧
      c.shared.log = [.onClose 1001, .disconnected true true] := ⟨_, rfl, rfl⟩
  refine ⟨c, System.reaches_follow hc (by decide), hlog, fun h => ?_⟩
  rw [hlog] at h
  obtain hrefused | hclose := (h.disconnects [.onClose 1001] [] true true rfl).close
  · exact absurd hrefused (by decide)
  · exact absurd hclose (by decide)

/-- **No data after Close** in every run in which text and binary frames are written only while
`closeSent` is not set. -/
theorem noDataAfterClose_of_unsent {c : Config TAbstractWebSocket Op}
    (h : sockets.Reaches Unsent start c) : NoDataAfterClose c.shared.log := by
  suffices hboth : Inv c.shared c.ops ∧ NoDataAfterClose c.shared.log from hboth.2
  refine @invariant _ _ _ sockets _ _ _ (fun s ops => Inv s ops ∧ NoDataAfterClose s.log) ?_ ?_ ?_
    h ⟨inv_start, fun pre x post hnil => by simp [start] at hnil⟩
  · exact fun s k l hkl hk => ⟨inv_perm s k l hkl hk.1, hk.2⟩
  · intro c i op rest others hcond hi _ hk
    refine ⟨inv_run hk.1, ?_⟩
    change NoDataAfterClose (op.run c.shared rest).2.log
    rw [run_log]
    refine hk.2.append fun hdata => ?_
    rw [event_isData] at hdata
    have hsent := hk.1.sent
    rw [hcond (by rw [next_of_some hi, hdata])] at hsent
    exact hsent.done_eq
  · intro c e hcond hk
    refine ⟨inv_happen c.shared e hk.1, ?_⟩
    change NoDataAfterClose (e.happen c.shared).2.log
    rw [happen_log]
    refine hk.2.append fun hdata => ?_
    obtain ⟨rfl, hposted⟩ := outsideEvent_isData c.shared e hdata
    have hsent := hk.1.sent
    rw [hcond hposted] at hsent
    exact hsent.done_eq

/-- A message is sent and the socket closed behind it. -/
def sendAndClose : List (Act Outside) :=
  [.outside (.receiving [⟨.TextFrame, [], some [.SendBinary [1], .SendClose 1000]⟩]),
    .resume 0, .resume 0, .resume 0, .resume 0]

theorem noDataAfterClose_of_unsent_close : ∃ c : Config TAbstractWebSocket Op,
    sockets.Reaches Unsent start c ∧
    c.shared.log = [.wrote ⟨.BinaryFrame, [1]⟩, .wrote (closeFrame 1000)] ∧
    NoDataAfterClose c.shared.log := by
  obtain ⟨c, hc, hlog⟩ : ∃ c, sockets.follow sendAndClose start = some c ∧
      c.shared.log = [.wrote ⟨.BinaryFrame, [1]⟩, .wrote (closeFrame 1000)] := ⟨_, rfl, rfl⟩
  have hreach : sockets.Reaches Unsent start c := System.reaches_follow hc (by decide)
  exact ⟨c, hreach, hlog, noDataAfterClose_of_unsent hreach⟩

/-- The socket is closed and a message sent behind it. -/
def closeAndSend : List (Act Outside) :=
  [.outside (.receiving [⟨.TextFrame, [], some [.SendClose 1000, .SendBinary [1]]⟩]),
    .resume 0, .resume 0, .resume 0, .resume 0]

theorem not_noDataAfterClose_closeAndSend : ∃ c : Config TAbstractWebSocket Op,
    sockets.Reaches (fun _ _ => True) start c ∧
    c.shared.log = [.wrote (closeFrame 1000), .wrote ⟨.BinaryFrame, [1]⟩] ∧
    ¬ NoDataAfterClose c.shared.log := by
  obtain ⟨c, hc, hlog⟩ : ∃ c, sockets.follow closeAndSend start = some c ∧
      c.shared.log = [.wrote (closeFrame 1000), .wrote ⟨.BinaryFrame, [1]⟩] := ⟨_, rfl, rfl⟩
  refine ⟨c, System.reaches_follow hc (by decide), hlog, fun h => ?_⟩
  rw [hlog] at h
  exact absurd (h [] _ _ rfl (by decide) _ List.mem_cons_self) (by decide)

end TreeFrog.WebSocketClose
