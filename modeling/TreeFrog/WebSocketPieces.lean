import TreeFrog.WebSocketRun

/-!
The WebSocket parser on arbitrary bytes: what the list of frames looks like after each call, and
that it does not depend on how the bytes are cut into pieces.
-/

namespace TreeFrog.WebSocketPieces

open TreeFrog.Bytes TreeFrog.BigEndian TreeFrog.WebSocketFrame TreeFrog.WebSocketParse
open TreeFrog.WebSocketRun

/-! ### The frames of the list -/

/-- A frame that has been read and found valid. -/
structure Done (f : TWebSocketFrame) : Prop where
  state : f.state_ = .Completed
  valid : f.valid_ = true
  sound : f.isSound = true
  payload : f.payload_.length = f.payloadLength_

/-- A frame whose last byte has been read; it is validated next. -/
structure Filled (f : TWebSocketFrame) : Prop where
  state : f.state_ = .Completed
  payload : f.payload_.length = f.payloadLength_

/-- A frame that bytes are still read into. -/
inductive Underway (f : TWebSocketFrame) : Prop
  | head (h : Blank f)
  | payload (hs : f.state_ = .HeaderParsed ∨ f.state_ = .MoreData) (hv : f.valid_ = false)
      (hlt : f.payload_.length < f.payloadLength_)

/-- What a list of frames looks like between two calls. -/
structure Represents (frames : List TWebSocketFrame) : Prop where
  front : ∀ f ∈ frames.dropLast, Done f
  last : ∀ f ∈ frames.getLast?, Done f ∨ Underway f

section
variable {f pfrm : TWebSocketFrame} {frames : List TWebSocketFrame}

lemma underway_new : Underway {} := .head blank_new

lemma Underway.state (h : Underway f) : f.state_ ≠ .Completed := by
  rcases h with hb | ⟨hs | hs, -, -⟩
  · rw [hb.state]; decide
  · rw [hs]; decide
  · rw [hs]; decide

lemma Underway.payload_le (h : Underway f) : f.payload_.length ≤ f.payloadLength_ := by
  rcases h with hb | ⟨-, -, hlt⟩
  · rw [hb.payload]
    exact Nat.zero_le _
  · exact hlt.le

/-- **Validation** turns a frame that has been read into one that is done. -/
lemma Filled.done (h : Filled f) (hv : f.validate.1 = true) : Done f.validate.2 := by
  have hs : ¬ f.state_ ≠ .Completed := not_not_intro h.state
  rw [TWebSocketFrame.validate, if_neg hs] at hv ⊢
  exact ⟨h.state, hv, hv, h.payload⟩

lemma represents_nil : Represents [] :=
  ⟨List.forall_mem_nil _, fun f hf => by cases hf⟩

lemma represents_done (h : ∀ f ∈ frames, Done f) : Represents frames :=
  ⟨fun f hf => h f (List.mem_of_mem_dropLast hf), fun f hf => .inl (h f (List.mem_of_getLast? hf))⟩

lemma represents_underway (h : ∀ f ∈ frames, Done f) (hp : Underway pfrm) :
    Represents (frames ++ [pfrm]) := by
  refine ⟨fun f hf => ?_, fun f hf => ?_⟩
  · rw [List.dropLast_concat] at hf
    exact h f hf
  · rw [List.getLast?_concat, Option.mem_some_iff] at hf
    exact .inr (hf ▸ hp)

lemma Represents.drop (h : Represents frames) (n : ℕ) : Represents (frames.drop n) := by
  refine ⟨fun f hf => h.front f ?_, fun f hf => h.last f ?_⟩
  · rw [List.dropLast_drop_eq_drop_dropLast] at hf
    exact List.mem_of_mem_drop hf
  · rw [List.getLast?_drop] at hf
    split_ifs at hf
    · cases hf
    · exact hf

lemma insertControlFrame_perm (frm : TWebSocketFrame) (frames : List TWebSocketFrame) :
    (insertControlFrame frm frames).Perm (frm :: frames) := by
  induction frames with
  | nil => exact .refl _
  | cons f fs ih =>
    rw [insertControlFrame]
    split_ifs
    · exact (ih.cons f).trans (.swap _ _ _)
    · exact .swap _ _ _

lemma place_done (h : ∀ f ∈ frames, Done f) (hp : Done pfrm) : ∀ f ∈ place frames pfrm, Done f := by
  intro f hf
  have hmem : f ∈ pfrm :: frames := by
    rw [place] at hf
    split_ifs at hf
    · exact (insertControlFrame_perm pfrm frames).mem_iff.mp hf
    · exact (List.perm_append_singleton _ _).mem_iff.mp hf
  rcases List.mem_cons.mp hmem with rfl | hf
  · exact hp
  · exact h f hf

lemma lastFrame_represents (h : Represents frames) :
    (∀ f ∈ (lastFrame frames).1, Done f) ∧ Underway (lastFrame frames).2 := by
  rw [lastFrame]
  cases hlast : frames.getLast? with
  | none =>
    rw [List.getLast?_eq_none_iff.mp hlast]
    exact ⟨List.forall_mem_nil _, underway_new⟩
  | some f =>
    have hframes := List.dropLast_append_getLast? f hlast
    dsimp only
    split_ifs with hs
    · refine ⟨fun g hg => ?_, underway_new⟩
      rw [← hframes, List.mem_append, List.mem_singleton] at hg
      rcases hg with hg | rfl
      · exact h.front g hg
      · exact (h.last g hlast).resolve_right fun hu => hu.state hs
    · exact ⟨h.front, (h.last f hlast).resolve_left fun hd => hs hd.state⟩

lemma lastFrame_done (h : ∀ f ∈ frames, Done f) : lastFrame frames = (frames, {}) := by
  rw [lastFrame]
  cases hlast : frames.getLast? with
  | none => rfl
  | some f => exact if_pos (h f (List.mem_of_getLast? hlast)).state

lemma lastFrame_underway (hp : Underway pfrm) :
    lastFrame (frames ++ [pfrm]) = (frames, pfrm) := by
  rw [lastFrame, List.getLast?_concat]
  dsimp only
  rw [if_neg hp.state, List.dropLast_concat]

end

/-! ### The header -/

section
variable {p pfrm : TWebSocketFrame} {hdr rest more : QByteArray}

lemma readLength_more {len : ℕ} (h : readLength pfrm len hdr = .more p) :
    p = pfrm ∧ hdr.length < 8 := by
  unfold readLength at h
  split_ifs at h with h126 hlt hsmall h127 hlt hsmall
  · cases h
    exact ⟨rfl, by omega⟩
  · cases h
    exact ⟨rfl, hlt⟩

lemma readLength_error {len : ℕ} (h : readLength pfrm len hdr = .error p) (more : QByteArray) :
    p = pfrm ∧ readLength pfrm len (hdr ++ more) = .error pfrm := by
  unfold readLength at h ⊢
  split_ifs at h with h126 hlt hsmall h127 hlt hsmall
  · cases h
    rw [if_pos h126, List.length_append, if_neg (by omega),
      List.take_append_of_le_length (by omega), if_pos hsmall]
    exact ⟨rfl, rfl⟩
  · cases h
    rw [if_neg h126, if_pos h127, List.length_append, if_neg (by omega),
      List.take_append_of_le_length (by omega), if_pos hsmall]
    exact ⟨rfl, rfl⟩

lemma readLength_next {len : ℕ} (h : readLength pfrm len hdr = .done p rest) :
    (∃ n, p = { pfrm with payloadLength_ := n }) ∧ rest <:+ hdr ∧
      hdr.length ≤ rest.length + 8 ∧
      ∀ (n : ℕ) (more : QByteArray),
        readLength { pfrm with payloadLength_ := n } len (hdr ++ more) =
          .done p (rest ++ more) := by
  unfold readLength at h ⊢
  split_ifs at h with h126 hlt hsmall h127 hlt hsmall
  · cases h
    refine ⟨⟨_, rfl⟩, List.drop_suffix _ _, by rw [List.length_drop]; omega, fun n more => ?_⟩
    rw [if_pos h126, List.length_append, if_neg (by omega),
      List.take_append_of_le_length (by omega), if_neg hsmall,
      List.drop_append_of_le_length (by omega)]
  · cases h
    refine ⟨⟨_, rfl⟩, List.drop_suffix _ _, by rw [List.length_drop]; omega, fun n more => ?_⟩
    rw [if_neg h126, if_pos h127, List.length_append, if_neg (by omega),
      List.take_append_of_le_length (by omega), if_neg hsmall,
      List.drop_append_of_le_length (by omega)]
  · cases h
    refine ⟨⟨_, rfl⟩, List.suffix_refl _, by omega, fun n more => ?_⟩
    rw [if_neg h126, if_neg h127]

lemma readMaskKey_more {maskFlag : Bool} (h : readMaskKey pfrm maskFlag hdr = .more p) :
    p = pfrm ∧ hdr.length < 4 := by
  unfold readMaskKey at h
  split_ifs at h with hmask hlt
  cases h
  exact ⟨rfl, hlt⟩

lemma readMaskKey_error {maskFlag : Bool} : readMaskKey pfrm maskFlag hdr ≠ .error p := by
  unfold readMaskKey
  split_ifs <;> exact HeaderResult.noConfusion

lemma readMaskKey_next {maskFlag : Bool} (h : readMaskKey pfrm maskFlag hdr = .done p rest) :
    (∃ key, p = { pfrm with maskKey_ := key }) ∧ rest <:+ hdr ∧
      ∀ more : QByteArray, readMaskKey pfrm maskFlag (hdr ++ more) = .done p (rest ++ more) := by
  unfold readMaskKey at h ⊢
  split_ifs at h with hmask hlt
  · cases h
    refine ⟨⟨_, rfl⟩, List.drop_suffix _ _, fun more => ?_⟩
    rw [if_pos hmask, List.length_append, if_neg (by omega),
      List.take_append_of_le_length (by omega), List.drop_append_of_le_length (by omega)]
  · cases h
    exact ⟨⟨_, rfl⟩, List.suffix_refl _, fun more => if_neg hmask⟩

lemma settle_reads (hp : pfrm.payload_ = []) (hv : pfrm.valid_ = false) :
    Underway (settle pfrm) ∨ Filled (settle pfrm) := by
  unfold settle
  split_ifs with hzero hbig
  · exact .inr ⟨rfl, by rw [hp, hzero]; rfl⟩
  · exact .inl underway_new
  · refine .inl (.payload (.inl rfl) hv ?_)
    rw [hp]
    exact Nat.pos_of_ne_zero hzero

/-- What is read as the header of a frame is the same when more bytes follow. If the header is not
complete, the frame keeps what will be read into it again. -/
inductive ReadsHeader (pfrm : TWebSocketFrame) (hdr : QByteArray) : HeaderResult → Prop
  | more {p : TWebSocketFrame} (hp : Blank p) (hlt : hdr.length < 14)
      (happend : ∀ more, readHeader p (hdr ++ more) = readHeader pfrm (hdr ++ more)) :
      ReadsHeader pfrm hdr (.more p)
  | error {p : TWebSocketFrame} (hp : Blank p)
      (happend : ∀ more, readHeader pfrm (hdr ++ more) = .error p) :
      ReadsHeader pfrm hdr (.error p)
  | done {p : TWebSocketFrame} {rest : QByteArray} (hp : Underway p ∨ Filled p)
      (hrest : rest <:+ hdr) (hlt : rest.length < hdr.length)
      (happend : ∀ more, readHeader pfrm (hdr ++ more) = .done p (rest ++ more)) :
      ReadsHeader pfrm hdr (.done p rest)

lemma readHeader_reads (hb : Blank pfrm) (hdr : QByteArray) :
    ReadsHeader pfrm hdr (readHeader pfrm hdr) := by
  match hdr with
  | [] => exact .more hb (by decide) fun _ => rfl
  | [b] => exact .more hb (by simp) fun _ => rfl
  | b₁ :: b₂ :: hdr =>
    rw [readHeader]
    cases hlength : readLength { pfrm with firstByte_ := b₁ } (b₂ &&& 0x7f).toNat hdr with
    | more p =>
      obtain ⟨rfl, hlt⟩ := readLength_more hlength
      refine .more ⟨hb.state, hb.maskKey, hb.payload, hb.valid⟩ ?_ fun _ => rfl
      rw [List.length_cons, List.length_cons]
      omega
    | error p =>
      have happend := readLength_error hlength
      obtain rfl := (happend []).1
      refine .error ⟨hb.state, hb.maskKey, hb.payload, hb.valid⟩ fun more => ?_
      rw [List.cons_append, List.cons_append, readHeader, (happend more).2]
    | done p rest =>
      obtain ⟨⟨n, rfl⟩, hrest, hlen, happend⟩ := readLength_next hlength
      dsimp only
      cases hmask : readMaskKey { { pfrm with firstByte_ := b₁ } with payloadLength_ := n }
          (b₂ &&& 0x80 ≠ 0) rest with
      | more p =>
        obtain ⟨rfl, hlt⟩ := readMaskKey_more hmask
        refine .more ⟨hb.state, hb.maskKey, hb.payload, hb.valid⟩ ?_ fun more => ?_
        · rw [List.length_cons, List.length_cons]
          omega
        · have hagain := happend n more
          have hfirst := happend pfrm.payloadLength_ more
          rw [List.cons_append, List.cons_append, readHeader, readHeader]
          rw [hagain, hfirst]
      | error p => exact absurd hmask readMaskKey_error
      | done p rest' =>
        obtain ⟨⟨key, rfl⟩, hrest', happend'⟩ := readMaskKey_next hmask
        refine .done (settle_reads hb.payload hb.valid) ?_ ?_ fun more => ?_
        · exact (hrest'.trans hrest).trans ((List.suffix_cons b₂ hdr).trans (List.suffix_cons _ _))
        · have hle := (hrest'.trans hrest).length_le
          rw [List.length_cons, List.length_cons]
          omega
        · have hfirst := happend pfrm.payloadLength_ more
          rw [List.cons_append, List.cons_append, readHeader, hfirst]
          dsimp only
          rw [happend' more]

end

/-! ### One turn of the loop -/

/-- What a turn of the loop does is the same when more bytes follow, except that a payload is read
as far as there are bytes. -/
inductive ReadsFrame (pfrm : TWebSocketFrame) (data : QByteArray) : Step → Prop
  | stop {p : TWebSocketFrame} (hp : Blank p)
      (happend : ∀ more, readFrame p (data ++ more) = readFrame pfrm (data ++ more)) :
      ReadsFrame pfrm data (.stop p)
  | error {p : TWebSocketFrame} (hp : Blank p)
      (happend : ∀ more, readFrame pfrm (data ++ more) = .error p) :
      ReadsFrame pfrm data (.error p)
  | next {p : TWebSocketFrame} {rest : QByteArray} (hp : Underway p ∨ Filled p)
      (hrest : rest <:+ data) (hlt : rest.length < data.length)
      (happend : ∀ more, readFrame pfrm (data ++ more) = .next p (rest ++ more)) :
      ReadsFrame pfrm data (.next p rest)
  | part {p : TWebSocketFrame} (hp : Underway p)
      (happend : ∀ more ≠ [], ∃ p' rest, readFrame p more = .next p' rest ∧
        readFrame pfrm (data ++ more) = .next p' rest) : ReadsFrame pfrm data (.next p [])

section
variable {pfrm : TWebSocketFrame} {data : QByteArray}

/-- What the loop does once the header has been looked at. -/
def afterHeader (data : QByteArray) : HeaderResult → Step
  | .more p => .stop p
  | .error p => .error p
  | .done p rest => .next p (data.drop ((data.take 14).length - rest.length))

lemma readFrame_head (hs : pfrm.state_ = .Empty) (data : QByteArray) :
    readFrame pfrm data = afterHeader data (readHeader pfrm (data.take 14)) := by
  unfold readFrame
  rw [hs]
  dsimp only
  cases readHeader pfrm (data.take 14) <;> rfl

lemma readFrame_payload (hs : pfrm.state_ = .HeaderParsed ∨ pfrm.state_ = .MoreData)
    (data : QByteArray) : readFrame pfrm data = readPayload pfrm data := by
  unfold readFrame
  rcases hs with hs | hs <;> rw [hs]

lemma readFrame_reads_head (hb : Blank pfrm) (data : QByteArray) :
    ReadsFrame pfrm data (readFrame pfrm data) := by
  have htake : ∀ more : QByteArray,
      (data ++ more).take 14 = data.take 14 ++ more.take (14 - data.length) :=
    fun more => List.take_append ..
  have hreads := readHeader_reads hb (data.take 14)
  rw [readFrame_head hb.state]
  cases hheader : readHeader pfrm (data.take 14) with
  | more p =>
    rw [hheader] at hreads
    obtain ⟨hp, hlt, happend⟩ | _ | _ := hreads
    -- the header is not there as a whole
    refine .stop hp fun more => ?_
    rw [readFrame_head hb.state, readFrame_head hp.state, htake, happend]
  | error p =>
    rw [hheader] at hreads
    obtain _ | ⟨hp, happend⟩ | _ := hreads
    -- no header can come of it, whatever follows
    refine .error hp fun more => ?_
    rw [readFrame_head hb.state, htake, happend, afterHeader]
  | done p rest =>
    rw [hheader] at hreads
    obtain _ | _ | ⟨hp, hrest, hlt, happend⟩ := hreads
    -- at most 14 bytes are looked at, and the header takes some of them
    obtain ⟨taken, htaken⟩ := hrest
    have hsplit : data = taken ++ (rest ++ data.drop 14) := by
      rw [← List.append_assoc, htaken, List.take_append_drop]
    have hlen : (data.take 14).length - rest.length = taken.length := by
      rw [← htaken, List.length_append, Nat.add_sub_cancel]
    have hpos : 0 < taken.length := by
      rw [← htaken, List.length_append] at hlt
      omega
    have hdrop : data.drop taken.length = rest ++ data.drop 14 := by
      conv_lhs => rw [hsplit]
      exact List.drop_left
    have hle : taken.length ≤ data.length := by
      rw [hsplit, List.length_append]
      omega
    rw [afterHeader, hlen]
    refine .next hp (List.drop_suffix _ _) ?_ fun more => ?_
    · rw [List.length_drop]
      omega
    · have hskip : (data.take 14 ++ more.take (14 - data.length)).length -
          (rest ++ more.take (14 - data.length)).length = taken.length := by
        rw [← htaken]
        simp only [List.length_append]
        omega
      rw [readFrame_head hb.state, htake, happend, afterHeader, htake]
      rw [hskip, List.drop_append_of_le_length hle]

/-- The frame with these bytes of its payload read. -/
def filledWith (pfrm : TWebSocketFrame) (taken : QByteArray) : TWebSocketFrame :=
  let p := if pfrm.maskKey_ ≠ 0 then mask pfrm.maskKey_ pfrm.payload_.length taken else taken
  { pfrm with
    payload_ := pfrm.payload_ ++ p
    state_ := if (pfrm.payload_ ++ p).length = pfrm.payloadLength_ then .Completed else .MoreData }

lemma length_filledWith (taken : QByteArray) :
    (filledWith pfrm taken).payload_.length = pfrm.payload_.length + taken.length := by
  unfold filledWith
  dsimp only
  split_ifs
  · rw [List.length_append, length_mask]
  · rw [List.length_append]

lemma filledWith_state (taken : QByteArray) : (filledWith pfrm taken).state_ =
    if pfrm.payload_.length + taken.length = pfrm.payloadLength_ then .Completed
    else .MoreData := by
  rw [← length_filledWith]
  rfl

lemma filledWith_append (as bs : QByteArray) :
    filledWith (filledWith pfrm as) bs = filledWith pfrm (as ++ bs) := by
  have hmask : (if pfrm.maskKey_ ≠ 0 then mask pfrm.maskKey_ pfrm.payload_.length (as ++ bs)
      else as ++ bs) =
      (if pfrm.maskKey_ ≠ 0 then mask pfrm.maskKey_ pfrm.payload_.length as else as) ++
        if pfrm.maskKey_ ≠ 0 then mask pfrm.maskKey_ (filledWith pfrm as).payload_.length bs
        else bs := by
    rw [length_filledWith]
    split_ifs
    · exact mask_append _ _ _ _
    · rfl
  unfold filledWith at hmask ⊢
  dsimp only at hmask ⊢
  rw [hmask, List.append_assoc]

lemma readPayload_eq (hlt : pfrm.payload_.length < pfrm.payloadLength_) (hd : data ≠ []) :
    readPayload pfrm data =
      .next (filledWith pfrm (data.take (pfrm.payloadLength_ - pfrm.payload_.length)))
        (data.drop (pfrm.payloadLength_ - pfrm.payload_.length)) := by
  have hpos := List.length_pos_iff.mpr hd
  rw [readPayload]
  dsimp only
  rw [if_neg (by omega)]
  rcases Nat.le_total (pfrm.payloadLength_ - pfrm.payload_.length) data.length with hle | hle
  · rw [Nat.min_eq_left hle]
    rfl
  · rw [Nat.min_eq_right hle, List.take_of_length_le hle, List.take_length,
      List.drop_eq_nil_of_le hle, List.drop_length]
    rfl

lemma readFrame_reads_payload (hs : pfrm.state_ = .HeaderParsed ∨ pfrm.state_ = .MoreData)
    (hv : pfrm.valid_ = false) (hlt : pfrm.payload_.length < pfrm.payloadLength_)
    (hd : data ≠ []) : ReadsFrame pfrm data (readFrame pfrm data) := by
  set size := pfrm.payloadLength_ - pfrm.payload_.length with hsize
  have hread : ∀ bytes ≠ [], readFrame pfrm bytes =
      .next (filledWith pfrm (bytes.take size)) (bytes.drop size) := fun bytes hbytes => by
    rw [readFrame_payload hs, readPayload_eq hlt hbytes]
  have hpos := List.length_pos_iff.mpr hd
  rw [hread data hd]
  rcases Nat.lt_or_ge data.length size with hshort | hlong
  · -- the payload goes on behind these bytes
    have hstate : (filledWith pfrm data).state_ = .MoreData := by
      rw [filledWith_state, if_neg (by omega)]
    have hlt' : (filledWith pfrm data).payload_.length < (filledWith pfrm data).payloadLength_ := by
      rw [length_filledWith]
      change _ < pfrm.payloadLength_
      omega
    have hrest : (filledWith pfrm data).payloadLength_ - (filledWith pfrm data).payload_.length =
        size - data.length := by
      rw [length_filledWith, hsize]
      change pfrm.payloadLength_ - _ = _
      omega
    rw [List.take_of_length_le hshort.le, List.drop_eq_nil_of_le hshort.le]
    refine .part (.payload (.inr hstate) hv hlt') fun more hm => ⟨_, _, ?_, hread _ ?_⟩
    · rw [readFrame_payload (.inr hstate), readPayload_eq hlt' hm, hrest, filledWith_append,
        List.take_append, List.drop_append, List.take_of_length_le hshort.le,
        List.drop_eq_nil_of_le hshort.le, List.nil_append]
    · exact List.append_ne_nil_of_left_ne_nil hd _
  · have hfilled : Filled (filledWith pfrm (data.take size)) := by
      have hlen : pfrm.payload_.length + (data.take size).length = pfrm.payloadLength_ := by
        rw [List.length_take]
        omega
      refine ⟨?_, ?_⟩
      · rw [filledWith_state, if_pos hlen]
      · rw [length_filledWith, hlen]
        rfl
    refine .next (.inr hfilled) (List.drop_suffix _ _) ?_ fun more => ?_
    · rw [List.length_drop]
      omega
    · rw [hread _ (List.append_ne_nil_of_left_ne_nil hd _), List.take_append_of_le_length hlong,
        List.drop_append_of_le_length hlong]

/-- **One turn of the loop**, on a frame that bytes are still read into. -/
lemma readFrame_reads (h : Underway pfrm) (hd : data ≠ []) :
    ReadsFrame pfrm data (readFrame pfrm data) := by
  rcases h with hb | ⟨hs, hv, hlt⟩
  · exact readFrame_reads_head hb data
  · exact readFrame_reads_payload hs hv hlt hd

end

/-! ### The loop -/

section
variable {pfrm : TWebSocketFrame} {frames : List TWebSocketFrame} {data : QByteArray}

/-- What the loop does after a turn that has read into the frame. -/
def afterRead (fuel : ℕ) (frames : List TWebSocketFrame) (pfrm : TWebSocketFrame)
    (data : QByteArray) : Outcome :=
  if pfrm.state_ ≠ .Completed then parseLoop fuel frames pfrm data
  else if ¬ pfrm.validate.1 then parseLoop fuel frames pfrm.clear data
  else if isMisplaced frames pfrm.validate.2 then parseLoop fuel frames pfrm.clear data
  else if data ≠ [] then parseLoop fuel (place frames pfrm.validate.2) {} data
  else .parsed (place frames pfrm.validate.2) data

/-- One turn, by what it reads. -/
def afterStep (fuel : ℕ) (frames : List TWebSocketFrame) (data : QByteArray) : Step → Outcome
  | .stop p => .parsed (frames ++ [p]) data
  | .error p => .error (frames ++ [p])
  | .assertion => .assertion
  | .next p rest => afterRead fuel frames p rest

lemma parseLoop_nil (fuel : ℕ) (frames : List TWebSocketFrame) (pfrm : TWebSocketFrame) :
    parseLoop fuel frames pfrm [] = .parsed (frames ++ [pfrm]) [] := by
  cases fuel with
  | zero => rw [parseLoop, if_pos rfl]
  | succ fuel => rw [parseLoop, if_pos rfl]

lemma parseLoop_succ (fuel : ℕ) (frames : List TWebSocketFrame) (pfrm : TWebSocketFrame)
    (hd : data ≠ []) : parseLoop (fuel + 1) frames pfrm data =
      afterStep fuel frames data (readFrame pfrm data) := by
  rw [parseLoop, if_neg hd]
  cases readFrame pfrm data <;> rfl

/-- After a turn that has read into the frame `p`, the loop goes on with the frame `next` behind the
frames `before`, or ends with the list `ended` if nothing is left. -/
structure GoesOn (frames : List TWebSocketFrame) (p : TWebSocketFrame)
    (before : List TWebSocketFrame) (next : TWebSocketFrame) (ended : List TWebSocketFrame) :
    Prop where
  done : ∀ f ∈ before, Done f
  underway : Underway next
  represents : Represents ended
  last : lastFrame ended = (before, next)
  goesOn : ∀ (fuel : ℕ) (rest : QByteArray), rest ≠ [] →
    afterRead fuel frames p rest = parseLoop fuel before next rest
  ends : ∀ fuel : ℕ, afterRead fuel frames p [] = .parsed ended []

lemma goesOn_underway {p next : TWebSocketFrame} (hframes : ∀ f ∈ frames, Done f)
    (hnext : Underway next)
    (hafter : ∀ fuel rest, afterRead fuel frames p rest = parseLoop fuel frames next rest) :
    GoesOn frames p frames next (frames ++ [next]) where
  done := hframes
  underway := hnext
  represents := represents_underway hframes hnext
  last := lastFrame_underway hnext
  goesOn fuel rest _ := hafter fuel rest
  ends fuel := (hafter fuel []).trans (parseLoop_nil fuel frames next)

lemma exists_goesOn {p : TWebSocketFrame} (hframes : ∀ f ∈ frames, Done f)
    (hp : Underway p ∨ Filled p) : ∃ before next ended, GoesOn frames p before next ended := by
  rcases hp with hp | hp
  · exact ⟨_, _, _, goesOn_underway hframes hp fun fuel rest => if_pos hp.state⟩
  have hstate : ¬ p.state_ ≠ .Completed := not_not_intro hp.state
  cases hvalid : p.validate.1 with
  | false =>
    refine ⟨_, _, _, goesOn_underway hframes underway_new fun fuel rest => ?_⟩
    rw [afterRead, if_neg hstate, if_pos (by rw [hvalid]; decide)]
    rfl
  | true =>
    have hread : ¬ ¬ p.validate.1 = true := not_not_intro hvalid
    cases hmisplaced : isMisplaced frames p.validate.2 with
    | true =>
      refine ⟨_, _, _, goesOn_underway hframes underway_new fun fuel rest => ?_⟩
      rw [afterRead, if_neg hstate, if_neg hread, if_pos hmisplaced]
      rfl
    | false =>
      have hplaced := place_done hframes (hp.done hvalid)
      refine ⟨_, _, _, hplaced, underway_new, represents_done hplaced, lastFrame_done hplaced,
        fun fuel rest hrest => ?_, fun fuel => ?_⟩
      · rw [afterRead, if_neg hstate, if_neg hread, if_neg (by rw [hmisplaced]; decide),
          if_pos hrest]
      · rw [afterRead, if_neg hstate, if_neg hread, if_neg (by rw [hmisplaced]; decide),
          if_neg (not_not_intro rfl)]

/-- What holds of a call whatever it is given. -/
inductive Sound (data : QByteArray) : Outcome → Prop
  | parsed {frames : List TWebSocketFrame} {rest : QByteArray} (hframes : Represents frames)
      (hrest : rest <:+ data) : Sound data (.parsed frames rest)
  | error {frames : List TWebSocketFrame} (hframes : Represents frames) :
      Sound data (.error frames)

lemma Sound.mono {rest : QByteArray} {o : Outcome} (h : Sound rest o) (hrest : rest <:+ data) :
    Sound data o := by
  rcases h with ⟨hframes, hs⟩ | hframes
  · exact .parsed hframes (hs.trans hrest)
  · exact .error hframes

/-- **The loop keeps the list of frames in shape**, meets no assertion, and ends within as many
turns as there are bytes and one. -/
lemma parseLoop_sound {fuel : ℕ} (hframes : ∀ f ∈ frames, Done f) (hp : Underway pfrm)
    (hf : data.length < fuel) : Sound data (parseLoop fuel frames pfrm data) := by
  induction fuel generalizing frames pfrm data with
  | zero => exact absurd hf (Nat.not_lt_zero _)
  | succ fuel ih =>
    by_cases hd : data = []
    · rw [hd, parseLoop_nil]
      exact .parsed (represents_underway hframes hp) (List.suffix_refl _)
    have hafter : ∀ (p : TWebSocketFrame) (rest : QByteArray), Underway p ∨ Filled p →
        rest <:+ data → rest.length < data.length → Sound data (afterRead fuel frames p rest) := by
      intro p rest hp hrest hlt
      obtain ⟨before, next, ended, hgoes⟩ := exists_goesOn hframes hp
      by_cases hnil : rest = []
      · rw [hnil, hgoes.ends]
        exact .parsed hgoes.represents List.nil_suffix
      · rw [hgoes.goesOn fuel rest hnil]
        exact (ih hgoes.done hgoes.underway (by omega)).mono hrest
    rw [parseLoop_succ fuel frames pfrm hd]
    have hreads := readFrame_reads hp hd
    generalize readFrame pfrm data = step at hreads ⊢
    obtain ⟨hb, -⟩ | ⟨hb, -⟩ | ⟨hp, hrest, hlt, -⟩ | ⟨hp, -⟩ := hreads
    · exact .parsed (represents_underway hframes (.head hb)) (List.suffix_refl _)
    · exact .error (represents_underway hframes (.head hb))
    · exact hafter _ _ hp hrest hlt
    · exact hafter _ _ (.inl hp) List.nil_suffix (List.length_pos_iff.mpr hd)

lemma afterRead_fuel {fuel fuel' : ℕ} {p : TWebSocketFrame} {rest : QByteArray}
    (hloop : ∀ (frames : List TWebSocketFrame) (pfrm : TWebSocketFrame), (∀ f ∈ frames, Done f) →
      Underway pfrm → parseLoop fuel frames pfrm rest = parseLoop fuel' frames pfrm rest)
    (hframes : ∀ f ∈ frames, Done f) (hp : Underway p ∨ Filled p) :
    afterRead fuel frames p rest = afterRead fuel' frames p rest := by
  obtain ⟨before, next, ended, hgoes⟩ := exists_goesOn hframes hp
  by_cases hnil : rest = []
  · rw [hnil, hgoes.ends, hgoes.ends]
  · rw [hgoes.goesOn fuel rest hnil, hgoes.goesOn fuel' rest hnil]
    exact hloop before next hgoes.done hgoes.underway

/-- **The loop ends**: more turns than there are bytes make no difference. -/
lemma parseLoop_fuel {fuel fuel' : ℕ} (hframes : ∀ f ∈ frames, Done f) (hp : Underway pfrm)
    (hf : data.length < fuel) (hf' : data.length < fuel') :
    parseLoop fuel frames pfrm data = parseLoop fuel' frames pfrm data := by
  induction fuel generalizing frames pfrm data fuel' with
  | zero => exact absurd hf (Nat.not_lt_zero _)
  | succ fuel ih =>
    obtain ⟨fuel', rfl⟩ := Nat.exists_eq_succ_of_ne_zero (Nat.ne_zero_of_lt hf')
    by_cases hd : data = []
    · rw [hd, parseLoop_nil, parseLoop_nil]
    have hpos := List.length_pos_iff.mpr hd
    rw [parseLoop_succ fuel frames pfrm hd, parseLoop_succ fuel' frames pfrm hd]
    have hreads := readFrame_reads hp hd
    generalize readFrame pfrm data = step at hreads ⊢
    obtain ⟨-, -⟩ | ⟨-, -⟩ | ⟨hp, -, hlt, -⟩ | ⟨hp, -⟩ := hreads
    · rfl
    · rfl
    · exact afterRead_fuel (fun _ _ hframes hp => ih hframes hp (by omega) (by omega)) hframes hp
    · refine afterRead_fuel (fun _ _ hframes hp => ih hframes hp ?_ ?_) hframes (.inl hp)
      · rw [List.length_nil]
        omega
      · rw [List.length_nil]
        omega

/-- More bytes arrive after a call. -/
def andThen (more : QByteArray) : Outcome → Outcome
  | .parsed frames recvData => parse frames (recvData ++ more)
  | .error frames => .error frames
  | .assertion => .assertion
  | .running => .running

lemma parse_eq {ended : List TWebSocketFrame} (hlast : lastFrame ended = (frames, pfrm))
    (hframes : ∀ f ∈ frames, Done f) (hp : Underway pfrm) {fuel : ℕ} (hf : data.length < fuel) :
    parse ended data = parseLoop fuel frames pfrm data := by
  rw [parse, hlast]
  exact parseLoop_fuel hframes hp (Nat.lt_succ_self _) hf

/-- **Bytes behind those that have been parsed**: the loop goes on where it has stopped. -/
lemma parseLoop_append {more : QByteArray} (hm : more ≠ []) {fuel fuel' : ℕ}
    (hframes : ∀ f ∈ frames, Done f) (hp : Underway pfrm) (hf : data.length < fuel)
    (hf' : (data ++ more).length < fuel') :
    parseLoop fuel' frames pfrm (data ++ more) =
      andThen more (parseLoop fuel frames pfrm data) := by
  induction fuel generalizing frames pfrm data fuel' with
  | zero => exact absurd hf (Nat.not_lt_zero _)
  | succ fuel ih =>
    obtain ⟨fuel', rfl⟩ := Nat.exists_eq_succ_of_ne_zero (Nat.ne_zero_of_lt hf')
    by_cases hd : data = []
    · rw [hd, List.nil_append] at hf' ⊢
      rw [parseLoop_nil, andThen, List.nil_append]
      exact (parse_eq (lastFrame_underway hp) hframes hp hf').symm
    have hne : data ++ more ≠ [] := List.append_ne_nil_of_left_ne_nil hd _
    rw [List.length_append] at hf'
    have hafter : ∀ (p : TWebSocketFrame) (rest : QByteArray), Underway p ∨ Filled p →
        rest.length < data.length →
          afterRead fuel' frames p (rest ++ more) =
            andThen more (afterRead fuel frames p rest) := by
      intro p rest hp hlt
      obtain ⟨before, next, ended, hgoes⟩ := exists_goesOn hframes hp
      rw [hgoes.goesOn fuel' _ (List.append_ne_nil_of_right_ne_nil _ hm)]
      by_cases hnil : rest = []
      · rw [hnil, hgoes.ends, andThen, List.nil_append]
        exact (parse_eq hgoes.last hgoes.done hgoes.underway (by omega)).symm
      · rw [hgoes.goesOn fuel rest hnil]
        refine ih hgoes.done hgoes.underway (by omega) ?_
        rw [List.length_append]
        omega
    rw [parseLoop_succ fuel frames pfrm hd, parseLoop_succ fuel' frames pfrm hne]
    have hreads := readFrame_reads hp hd
    generalize readFrame pfrm data = step at hreads ⊢
    obtain ⟨hb, happend⟩ | ⟨-, happend⟩ | ⟨hp, -, hlt, happend⟩ | ⟨hp', happend⟩ := hreads
    · -- the bytes of the header are looked at again
      have hu := Underway.head hb
      rw [afterStep, andThen, ← happend more, ← parseLoop_succ fuel' frames _ hne]
      refine (parse_eq (lastFrame_underway hu) hframes hu ?_).symm
      rw [List.length_append]
      omega
    · rw [happend more]
      rfl
    · rw [happend more]
      exact hafter _ _ hp hlt
    · obtain ⟨p', rest, hread, hread'⟩ := happend more hm
      have hreads := readFrame_reads hp' hm
      rw [hread] at hreads
      obtain ⟨hnext, hlt⟩ : (Underway p' ∨ Filled p') ∧ rest.length < more.length := by
        obtain _ | _ | ⟨hnext, -, hlt, -⟩ | ⟨hnext, -⟩ := hreads
        · exact ⟨hnext, hlt⟩
        · exact ⟨.inl hnext, List.length_pos_iff.mpr hm⟩
      have hstopped : afterRead fuel frames _ [] = .parsed (frames ++ [_]) [] :=
        (if_pos hp'.state).trans (parseLoop_nil fuel frames _)
      rw [hread', afterStep, afterStep, hstopped, andThen, List.nil_append,
        parse_eq (lastFrame_underway hp') hframes hp' (Nat.lt_succ_self more.length),
        parseLoop_succ _ frames _ hm, hread, afterStep]
      exact afterRead_fuel (fun _ _ hframes hp => parseLoop_fuel hframes hp (by omega) hlt) hframes
        hnext

end

/-! ### Calls -/

/-- **One call**: the list of frames keeps its shape, and a part of the bytes is consumed. -/
theorem parse_sound {frames : List TWebSocketFrame} (h : Represents frames) (data : QByteArray) :
    Sound data (parse frames data) :=
  parseLoop_sound (lastFrame_represents h).1 (lastFrame_represents h).2 (Nat.lt_succ_self _)

/-- **Two calls** come to one with the bytes of both. -/
theorem parse_append {frames : List TWebSocketFrame} (h : Represents frames) (data : QByteArray)
    {more : QByteArray} (hm : more ≠ []) :
    parse frames (data ++ more) = andThen more (parse frames data) :=
  parseLoop_append hm (lastFrame_represents h).1 (lastFrame_represents h).2
    (Nat.lt_succ_self _) (Nat.lt_succ_self _)

/-- Calls with one piece after another, the bytes left unparsed in front; none if one of them
reports an error. -/
def parsePieces : Connection → List QByteArray → Option Connection
  | s, [] => some s
  | s, c :: cs =>
    match parse s.frames (s.recvBuffer ++ c) with
    | .parsed frames recvBuffer => parsePieces ⟨frames, recvBuffer⟩ cs
    | _ => none

lemma parsePieces_eq {s : Connection} (hs : Represents s.frames) (c : QByteArray)
    {cs : List QByteArray} (hcs : ∀ d ∈ cs, d ≠ []) {frames : List TWebSocketFrame}
    {recvData : QByteArray}
    (h : parse s.frames (s.recvBuffer ++ (c :: cs).flatten) = .parsed frames recvData) :
    parsePieces s (c :: cs) = some ⟨frames, recvData⟩ := by
  induction cs generalizing s c with
  | nil =>
    rw [List.flatten_singleton] at h
    rw [parsePieces, h]
    rfl
  | cons d cs ih =>
    obtain ⟨hd, hcs⟩ := List.forall_mem_cons.mp hcs
    have hmore : (d :: cs).flatten ≠ [] := by
      rw [List.flatten_cons]
      exact List.append_ne_nil_of_left_ne_nil hd _
    rw [List.flatten_cons, ← List.append_assoc, parse_append hs _ hmore] at h
    have hsound := parse_sound hs (s.recvBuffer ++ c)
    rw [parsePieces]
    generalize parse s.frames (s.recvBuffer ++ c) = o at h hsound ⊢
    obtain ⟨hframes, -⟩ | - := hsound
    · exact ih hframes d hcs h
    · cases h

/-- **The pieces do not matter**: the list of frames and the bytes left over are those of one call
with all the bytes. -/
theorem parse_pieces (c : QByteArray) (cs : List QByteArray) (hcs : ∀ d ∈ cs, d ≠ [])
    {frames : List TWebSocketFrame} {recvData : QByteArray}
    (h : parse [] (c :: cs).flatten = .parsed frames recvData) :
    parsePieces {} (c :: cs) = some ⟨frames, recvData⟩ :=
  parsePieces_eq represents_nil c hcs h

/-- A masked text frame of one byte and the head of the next frame, cut inside the mask key. -/
def cutInKey : List QByteArray := [[0x81, 0x81, 1, 2], [3, 4, 0x60, 0x82]]

theorem parse_pieces_cutInKey : parsePieces {} cutInKey = some
    ⟨[⟨0x81, 0x01020304, 1, [0x61], .Completed, true⟩, {}], [0x82]⟩ :=
  parse_pieces [0x81, 0x81, 1, 2] [[3, 4, 0x60, 0x82]] (by decide) (by decide +kernel)

/-- A piece, and what is done with the list of frames between two calls. -/
inductive Act
  | receive (piece : QByteArray)
  /-- The caller takes so many frames from the front. -/
  | take (n : ℕ)

/-- The connection after a call; an error leaves the bytes where they are. -/
def afterCall (recvBuffer : QByteArray) : Outcome → Connection
  | .parsed frames rest => ⟨frames, rest⟩
  | .error frames => ⟨frames, recvBuffer⟩
  | .assertion | .running => ⟨[], recvBuffer⟩

def Act.run (s : Connection) : Act → Connection
  | .receive piece => afterCall (s.recvBuffer ++ piece) (parse s.frames (s.recvBuffer ++ piece))
  | .take n => { s with frames := s.frames.drop n }

/-- A new connection after these acts. -/
def connection (acts : List Act) : Connection := acts.foldl Act.run {}

lemma represents_connection (acts : List Act) : Represents (connection acts).frames := by
  induction acts using List.reverseRecOn with
  | nil => exact represents_nil
  | append_singleton acts act ih =>
    rw [connection, List.foldl_append, List.foldl_cons, List.foldl_nil]
    cases act with
    | take n => exact ih.drop n
    | receive piece =>
      have hsound := parse_sound ih ((connection acts).recvBuffer ++ piece)
      change Represents (Act.run (connection acts) (.receive piece)).frames
      rw [Act.run]
      generalize parse _ _ = o at hsound ⊢
      obtain ⟨hframes, -⟩ | hframes := hsound
      · exact hframes
      · exact hframes

/-- A list of frames as it may be left by a call. -/
structure WellFormed (frames : List TWebSocketFrame) : Prop where
  front : ∀ f ∈ frames.dropLast,
    f.state_ = .Completed ∧ f.valid_ = true ∧ f.validate.1 = true
  payload_le : ∀ f ∈ frames, f.payload_.length ≤ f.payloadLength_
  payload_eq : ∀ f ∈ frames, f.state_ = .Completed → f.payload_.length = f.payloadLength_

lemma Represents.wellFormed {frames : List TWebSocketFrame} (h : Represents frames) :
    WellFormed frames := by
  have hall : ∀ f ∈ frames, Done f ∨ Underway f := fun f hf => by
    rcases List.eq_nil_or_concat frames with rfl | ⟨front, last, rfl⟩
    · cases hf
    · rw [List.concat_eq_append] at h hf
      rcases List.mem_append.mp hf with hf | hf
      · exact .inl (h.front f (by rwa [List.dropLast_concat]))
      · exact h.last f (by rw [List.getLast?_concat, List.mem_singleton.mp hf]; rfl)
  refine ⟨fun f hf => ?_, fun f hf => ?_, fun f hf hs => ?_⟩
  · have hd := h.front f hf
    refine ⟨hd.state, hd.valid, ?_⟩
    rw [TWebSocketFrame.validate, if_neg (not_not_intro hd.state)]
    exact hd.sound
  · rcases hall f hf with hd | hu
    · exact hd.payload.le
    · exact hu.payload_le
  · exact ((hall f hf).resolve_right fun hu => hu.state hs).payload

/-- **Any bytes whatsoever**: after each call the list of frames is well formed, `n` bytes of those
given have been consumed, no assertion has failed, and the loop has ended by itself, with one turn
for each byte and one more, or with any number of turns above. -/
theorem parse_wellFormed (acts : List Act) (piece : QByteArray) :
    ∃ (frames : List TWebSocketFrame) (n : ℕ),
      WellFormed frames ∧ n ≤ ((connection acts).recvBuffer ++ piece).length ∧
      (parse (connection acts).frames ((connection acts).recvBuffer ++ piece) =
          .parsed frames (((connection acts).recvBuffer ++ piece).drop n) ∨
        (n = 0 ∧ parse (connection acts).frames ((connection acts).recvBuffer ++ piece) =
          .error frames)) ∧
      ∀ fuel, ((connection acts).recvBuffer ++ piece).length < fuel →
        parseLoop fuel (lastFrame (connection acts).frames).1
            (lastFrame (connection acts).frames).2 ((connection acts).recvBuffer ++ piece) =
          parse (connection acts).frames ((connection acts).recvBuffer ++ piece) := by
  set s := connection acts with hs
  have hframes : Represents s.frames := represents_connection acts
  obtain ⟨hdone, hunderway⟩ := lastFrame_represents hframes
  have hends : ∀ fuel, (s.recvBuffer ++ piece).length < fuel →
      parseLoop fuel (lastFrame s.frames).1 (lastFrame s.frames).2 (s.recvBuffer ++ piece) =
        parse s.frames (s.recvBuffer ++ piece) :=
    fun fuel hf => (parse_eq rfl hdone hunderway hf).symm
  have hsound := parse_sound hframes (s.recvBuffer ++ piece)
  cases hparse : parse s.frames (s.recvBuffer ++ piece) with
  | parsed frames rest =>
    rw [hparse] at hsound
    obtain ⟨hrep, hrest⟩ | - := hsound
    refine ⟨frames, (s.recvBuffer ++ piece).length - rest.length, hrep.wellFormed,
      Nat.sub_le _ _, .inl ?_, hparse ▸ hends⟩
    rw [← List.suffix_iff_eq_drop.mp hrest]
  | error frames =>
    rw [hparse] at hsound
    obtain - | hrep := hsound
    exact ⟨frames, 0, hrep.wellFormed, Nat.zero_le _, .inr ⟨rfl, rfl⟩, hparse ▸ hends⟩
  | assertion =>
    rw [hparse] at hsound
    nomatch hsound
  | running =>
    rw [hparse] at hsound
    nomatch hsound

end TreeFrog.WebSocketPieces
