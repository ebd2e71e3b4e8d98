import Rad.Http2.Client.Lemmas.Passes

/-!
# Request bodies

The rounds of `collect_data_frames` take chunks of the bodies of the open streams. No other step changes what is left of a
body or takes its stream out of turn.
-/

namespace Rad.Http2

open Lib Client

/-! ## Chunks of a body -/

/-- The frames carry the body but for a rest, in chunks that are not empty. The frame that ends the body is the one with
END_STREAM. -/
structure BodySent (body : Bytes) (frames : List (FrameHeader × Bytes)) (rest : Bytes) : Prop where
  whole : frames.flatMap Prod.snd ++ rest = body
  nonempty : ∀ frame ∈ frames, frame.2 ≠ []
  length : ∀ frame ∈ frames, frame.1.length = frame.2.length
  ends : ∀ first frame last, frames = first ++ frame :: last →
    (hasFlag frame.1.flags endStreamFlag = true ↔ last = [] ∧ rest = [])

theorem bodySent_start (body : Bytes) : BodySent body [] body :=
  ⟨rfl, by simp, by simp, fun first frame last h => by simp at h⟩

theorem BodySent.chunk {s : Stream} {body : Bytes} {frames : List (FrameHeader × Bytes)} (h : BodySent body frames s.body)
    (hbody : s.body ≠ []) {n : Nat} (hpos : 0 < n) (hle : n ≤ s.body.length) :
    BodySent body (frames ++ [(dataFrameHeader s n, s.body.take n)]) (s.body.drop n) := by
  have hflag : hasFlag (dataFrameHeader s n).flags endStreamFlag = true ↔ s.body.drop n = [] := by
    rw [List.drop_eq_nil_iff]
    unfold dataFrameHeader
    by_cases heq : n = s.body.length
    · simp [heq, hasFlag, endStreamFlag]
    · simp only [heq, if_false]
      exact ⟨fun hzero => absurd hzero (by decide), fun hge => absurd (Nat.le_antisymm hle hge) heq⟩
  refine ⟨?_, fun frame hframe => ?_, fun frame hframe => ?_, fun first frame last heq => ?_⟩
  · rw [List.flatMap_append, List.flatMap_singleton, List.append_assoc, List.take_append_drop, h.whole]
  · rcases List.mem_append.1 hframe with hold | hnew
    · exact h.nonempty frame hold
    · rw [List.mem_singleton.1 hnew]
      exact fun hnil => by simp [hbody, hpos.ne'] at hnil
  · rcases List.mem_append.1 hframe with hold | hnew
    · exact h.length frame hold
    · rw [List.mem_singleton.1 hnew]
      simp [dataFrameHeader, hle]
  · -- a frame before the last one was sent while the body was not at its end
    rcases List.eq_nil_or_concat last with rfl | ⟨last, x, rfl⟩
    · have hlast : [(dataFrameHeader s n, s.body.take n)] = [frame] := (List.append_inj' heq rfl).2
      rw [← List.singleton_inj.1 hlast]
      simp [hflag]
    · rw [List.concat_eq_append, ← List.cons_append, ← List.append_assoc] at heq
      have hframes : frames = first ++ frame :: last := (List.append_inj' heq rfl).1
      have hnot := h.ends first frame last hframes
      simp [hbody] at hnot
      simp [hnot]

/-! ## Rounds -/

/-- Chunks of at most `n` bytes are taken from the bodies of the streams, one after the other. -/
inductive Emits (n : Nat) (l : List Stream) : List (FrameHeader × Bytes) → List Stream → Prop where
  | start : Emits n l [] l
  | chunk {frames : List (FrameHeader × Bytes)} {first last : List Stream} {s : Stream}
      (h : Emits n l frames (first ++ s :: last)) (hbody : s.hasBody = true) :
      Emits n l (frames ++ [(dataFrameHeader s (min n s.body.length), s.body.take (min n s.body.length))])
        (first ++ { s with body := s.body.drop (min n s.body.length) } :: last)

section Rounds

variable {n : Nat} {l l' streams : List Stream} {frames : List (FrameHeader × Bytes)} {totalSize availableFrames id : Nat}

theorem Stream.hasBody_eq_true {s : Stream} :
    s.hasBody = true ↔ s.isHalfClosedLocal = false ∧ s.isClosed = false ∧ s.body ≠ [] := by
  simp [Stream.hasBody, and_assoc]

theorem collectSweep_emits (first : List Stream) (totalSize availableFrames : Nat)
    (h : Emits n l frames (first ++ streams)) :
    Emits n l (frames ++ (collectSweep n streams totalSize availableFrames).frames)
      (first ++ (collectSweep n streams totalSize availableFrames).streams) := by
  induction streams generalizing first frames totalSize availableFrames with
  | nil => simpa [collectSweep] using h
  | cons s rest ih =>
      rw [collectSweep]
      split
      · dsimp only
        rw [List.append_cons] at h ⊢
        exact ih _ _ _ h
      · rename_i hbody
        have hchunk := h.chunk (by simpa using hbody)
        dsimp only
        split
        · exact hchunk
        · dsimp only
          rw [List.append_cons first] at hchunk
          rw [List.append_cons first, List.append_cons frames]
          exact ih _ _ _ hchunk

theorem collectLoop_emits (n : Nat) (streams : List Stream) (totalSize availableFrames : Nat) :
    ∀ frames, Emits n l frames streams →
      Emits n l (frames ++ (collectLoop n streams totalSize availableFrames).frames)
        (collectLoop n streams totalSize availableFrames).streams := by
  fun_induction collectLoop n streams totalSize availableFrames with
  | case1 streams totalSize availableFrames hgo r =>
      exact fun frames h => collectSweep_emits [] _ _ h
  | case2 streams totalSize availableFrames hgo r hsome rest =>
      rename_i ih
      intro frames h
      have hrest := ih _ (collectSweep_emits [] _ _ h)
      rw [List.append_assoc] at hrest
      exact hrest
  | case3 streams totalSize availableFrames hstop =>
      intro frames h
      rw [List.append_nil]
      exact h

theorem Emits.ids (h : Emits n l frames l') : l'.map Stream.id = l.map Stream.id := by
  induction h with
  | start => rfl
  | chunk h hbody ih => simpa using ih

theorem Emits.length_le (h : Emits n l frames l') : ∀ frame ∈ frames, frame.2.length ≤ n := by
  induction h with
  | start => simp
  | chunk h hbody ih =>
      intro frame hframe
      rcases List.mem_append.1 hframe with hold | hnew
      · exact ih frame hold
      · rw [List.mem_singleton.1 hnew]
        simp only [List.length_take]
        omega

theorem Emits.nil_of_none (h : Emits n l frames l') (hnone : ∀ s ∈ l, s.hasBody = false) : frames = [] := by
  have hsame : frames = [] ∧ l' = l := by
    induction h with
    | start => exact ⟨rfl, rfl⟩
    | chunk h hbody ih =>
        have hs := hnone _ (ih.2 ▸ List.mem_append_right _ (List.mem_cons_self ..))
        exact absurd hbody (by simp [hs])
  exact hsame.1

theorem eq_of_ids (hids : (l.map Stream.id).Nodup) {s s' : Stream} (hs : s ∈ l) (hs' : s' ∈ l) (h : s.id = s'.id) :
    s = s' :=
  List.inj_on_of_nodup_map hids hs hs' h

/-- What the frames of a round are to one of the streams. -/
theorem Emits.bodySent (h : Emits n l frames l') (hpos : 0 < n) (hids : (l.map Stream.id).Nodup) {s : Stream}
    (hs : s ∈ l) {body : Bytes} {sent : List (FrameHeader × Bytes)} (hsent : BodySent body sent s.body) :
    ∃ rest, { s with body := rest } ∈ l' ∧
      BodySent body (sent ++ frames.filter fun frame => frame.1.streamId = s.id) rest := by
  induction h with
  | start => exact ⟨s.body, hs, by simpa using hsent⟩
  | chunk h hbody ih =>
      rename_i frames first last q
      obtain ⟨rest, hmem, hsent⟩ := ih
      have hids' : ((first ++ q :: last).map Stream.id).Nodup := by rw [h.ids]; exact hids
      by_cases hq : q.id = s.id
      · have heq : { s with body := rest } = q := eq_of_ids hids' hmem (by simp) hq.symm
        have hrest : q.body = rest := by rw [← heq]
        have hne := (Stream.hasBody_eq_true.1 hbody).2.2
        have hlen : 0 < q.body.length := List.length_pos_iff.2 hne
        rw [← hrest] at hsent
        refine ⟨q.body.drop (min n q.body.length), ?_, ?_⟩
        · refine List.mem_append_right _ (List.mem_cons.2 (.inl ?_))
          rw [← heq]
        · have hframe : (dataFrameHeader q (min n q.body.length)).streamId = s.id := hq
          rw [List.filter_append, ← List.append_assoc, List.filter_singleton]
          simp only [hframe, decide_true, cond_true]
          exact hsent.chunk hne (by omega) (Nat.min_le_right _ _)
      · refine ⟨rest, ?_, ?_⟩
        · simp only [List.mem_append, List.mem_cons] at hmem ⊢
          rcases hmem with hmem | hmem | hmem
          · exact .inl hmem
          · exact absurd (congrArg Stream.id hmem).symm hq
          · exact .inr (.inr hmem)
        · have hframe : (dataFrameHeader q (min n q.body.length)).streamId ≠ s.id := hq
          rw [List.filter_append, List.filter_singleton]
          simpa [hframe] using hsent

/-! ## Progress -/

/-- What is left of the bodies up to the one of the stream with the id, in the order in which a round goes over them. -/
def backlog (id : Nat) : List Stream → Nat
  | [] => 0
  | s :: rest => s.body.length + if s.id = id then 0 else backlog id rest

/-- A stream after a step, with nothing added to its body. -/
structure Spends (new old : Stream) : Prop where
  id : new.id = old.id
  body : new.body.length ≤ old.body.length

instance : Std.Refl Spends := ⟨fun _ => ⟨rfl, Nat.le_refl _⟩⟩

instance : IsTrans Stream Spends := ⟨fun _ _ _ h h' => ⟨h.id.trans h'.id, h.body.trans h'.body⟩⟩

theorem backlog_le (h : List.SublistForall₂ Spends l' l) (hids : (l.map Stream.id).Nodup)
    (hmem : id ∈ l'.map Stream.id) : backlog id l' ≤ backlog id l := by
  induction h with
  | nil => cases hmem
  | cons hR hrest ih =>
      rename_i new old l' l
      simp only [List.map_cons, List.nodup_cons] at hids
      simp only [List.map_cons, List.mem_cons] at hmem
      have hbody := hR.body
      unfold backlog
      by_cases hid : new.id = id
      · rw [if_pos hid, if_pos (hR.id.symm.trans hid)]
        omega
      · have := ih hids.2 (hmem.resolve_left fun h => hid h.symm)
        rw [if_neg hid, if_neg fun h => hid (hR.id.trans h)]
        omega
  | cons_right hrest ih =>
      rename_i old l' l
      simp only [List.map_cons, List.nodup_cons] at hids
      have hle := ih hids.2 hmem
      have hne : old.id ≠ id := fun hid => hids.1 (by
        obtain ⟨new, hnew, rfl⟩ := List.mem_map.1 hmem
        obtain ⟨x, hx, hR⟩ := exists_of_sublistForall₂ hrest hnew
        rw [hid]
        exact List.mem_map.2 ⟨x, hx, hR.id.symm⟩)
      simp only [backlog, hne, if_false]
      omega

theorem Emits.spends (h : Emits n l frames l') : List.SublistForall₂ Spends l' l := by
  induction h with
  | start => exact refl l
  | chunk h hbody ih =>
      refine IsTrans.trans _ _ _ (sublistForall₂_replace ⟨rfl, ?_⟩ _ _) ih
      simp

theorem collectSweep_backlog (hpos : 0 < n) (hids : (streams.map Stream.id).Nodup) {s : Stream} (hs : s ∈ streams)
    (hbody : s.hasBody = true) :
    backlog s.id (collectSweep n streams totalSize availableFrames).streams < backlog s.id streams := by
  induction streams generalizing totalSize availableFrames with
  | nil => cases hs
  | cons q rest ih =>
      simp only [List.map_cons, List.nodup_cons] at hids
      rw [collectSweep]
      split
      · rename_i hq
        have hne : s ≠ q := fun heq => by
          rw [heq] at hbody
          simp [hbody] at hq
        have hs : s ∈ rest := (List.mem_cons.1 hs).resolve_left hne
        have hid : q.id ≠ s.id := fun hid => hids.1 (by rw [hid]; exact List.mem_map_of_mem hs)
        simp only [backlog, hid, if_false]
        exact Nat.add_lt_add_left (ih hids.2 hs) _
      · rename_i hq
        have hlen : 0 < q.body.length := List.length_pos_iff.2 (Stream.hasBody_eq_true.1 (by simpa using hq)).2.2
        -- the first body with something to send is the one that gets shorter
        have hrest : ∀ totalSize availableFrames, s.id ≠ q.id →
            backlog s.id (collectSweep n rest totalSize availableFrames).streams ≤ backlog s.id rest := by
          intro totalSize availableFrames hne
          have hs : s ∈ rest := (List.mem_cons.1 hs).resolve_left fun heq => hne (congrArg Stream.id heq)
          have hemits := collectSweep_emits [] totalSize availableFrames (Emits.start : Emits n rest [] rest)
          refine backlog_le hemits.spends hids.2 ?_
          rw [collectSweep_ids]
          exact List.mem_map_of_mem hs
        dsimp only
        by_cases hid : q.id = s.id
        · split <;>
          · simp only [backlog, hid, if_true, List.length_drop]
            omega
        · have := hrest (totalSize + min n q.body.length) (availableFrames - 1) (Ne.symm hid)
          split <;>
          · simp only [backlog, hid, if_false, List.length_drop]
            omega

theorem collectSweep_frames {s : Stream} (hs : s ∈ streams) (hbody : s.hasBody = true) :
    (collectSweep n streams totalSize availableFrames).frames ≠ [] := by
  induction streams generalizing totalSize availableFrames with
  | nil => cases hs
  | cons q rest ih =>
      rw [collectSweep]
      split
      · rename_i hq
        refine ih ((List.mem_cons.1 hs).resolve_left fun heq => ?_)
        rw [heq] at hbody
        simp [hbody] at hq
      · dsimp only
        split <;> simp

theorem collectDataFrames_emits (c : Client) :
    Emits c.maxChunkSize c.openStreams c.collectDataFrames.2 c.collectDataFrames.1.openStreams :=
  collectLoop_emits c.maxChunkSize c.openStreams 0 100 [] .start

/-- A round with something to send sends something, and brings the body of every stream nearer to its turn. -/
theorem collectDataFrames_progress {c : Client} (hpos : 0 < c.maxChunkSize) (hids : c.streamIds.Nodup) {s : Stream}
    (hs : s ∈ c.openStreams) (hbody : s.hasBody = true) :
    c.collectDataFrames.2 ≠ [] ∧ backlog s.id c.collectDataFrames.1.openStreams < backlog s.id c.openStreams := by
  have hframes : (collectSweep c.maxChunkSize c.openStreams 0 100).frames ≠ [] := collectSweep_frames hs hbody
  have hsweep := @collectSweep_backlog _ _ 0 100 hpos hids s hs hbody
  have hrest := collectLoop_emits c.maxChunkSize (collectSweep c.maxChunkSize c.openStreams 0 100).streams
    (collectSweep c.maxChunkSize c.openStreams 0 100).totalSize
    (collectSweep c.maxChunkSize c.openStreams 0 100).availableFrames [] .start
  have hle := backlog_le hrest.spends (by rw [collectSweep_ids]; exact hids)
    (by rw [hrest.ids, collectSweep_ids]; exact List.mem_map_of_mem hs)
  unfold collectDataFrames
  dsimp only
  rw [collectLoop, dif_pos (by decide)]
  dsimp only
  rw [dif_neg hframes]
  exact ⟨by simp [hframes], Nat.lt_of_le_of_lt hle hsweep⟩

end Rounds

/-! ## The other steps -/

/-- A stream after a step that sends nothing of its body: as long as there is something to send, it is not closed on the
client's side. -/
structure SameBody (new old : Stream) : Prop where
  id : new.id = old.id
  body : new.body = old.body
  hasBody : old.hasBody = true → new.hasBody = true

instance : Std.Refl SameBody := ⟨fun _ => ⟨rfl, rfl, fun h => h⟩⟩

instance : IsTrans Stream SameBody :=
  ⟨fun _ _ _ h h' => ⟨h.id.trans h'.id, h.body.trans h'.body, fun hbody => h.hasBody (h'.hasBody hbody)⟩⟩

/-- The open streams after a step that opens none and sends no bodies. -/
def KeepsBodies (c c' : Client) : Prop := List.SublistForall₂ SameBody c'.openStreams c.openStreams

section KeepsBodies

variable {c c' d : Client} {id : Nat} {it it' : Stream}

theorem keepsBodies_of_eq (h : c'.openStreams = c.openStreams) : KeepsBodies c c' := by
  rw [KeepsBodies, h]
  exact refl _

theorem sameBody_of_state (hid : it'.id = it.id) (hbody : it'.body = it.body) (hstate : it'.state = it.state) :
    SameBody it' it := by
  refine ⟨hid, hbody, fun h => ?_⟩
  rw [Stream.hasBody_eq_true] at h ⊢
  simpa [Stream.isHalfClosedLocal, Stream.isClosed, hbody, hstate] using h

theorem Client.Leaves.keepsBodies (h : Leaves c id it' c') (hfind : c.findStream id = some it) (hsame : SameBody it' it) :
    KeepsBodies c c' := by
  rw [KeepsBodies, h.openStreams]
  refine sublistForall₂_modify fun x hx => ?_
  have heq : it = x := Option.some.inj (hfind.symm.trans hx)
  rwa [← heq]

theorem abandon_keepsBodies (c : Client) (id : Nat) : KeepsBodies c (c.abandon id) :=
  (List.eraseIdx_sublist _ _).sublistForall₂

theorem Client.Ends.keepsBodies {ec : Option Error} (h : Ends c id it ec c') : KeepsBodies c c' := by
  rw [KeepsBodies, h.openStreams]
  exact abandon_keepsBodies c id

/-- A frame that ends the stream on the server's side leaves it open on the client's side. -/
theorem sameBody_afterFlags {flags : UInt8} (hopen : (afterFlags flags it).isClosed = false) :
    SameBody (afterFlags flags it) it := by
  unfold afterFlags at hopen ⊢
  split
  · rename_i hend
    rw [if_pos hend] at hopen
    refine ⟨rfl, rfl, fun h => ?_⟩
    rw [Stream.hasBody_eq_true] at h ⊢
    refine ⟨?_, hopen, h.2.2⟩
    unfold Stream.recvES Stream.isHalfClosedLocal
    split <;> simp
  · exact refl _

theorem Client.Settles.keepsBodies (h : Settles c id it' c') (hfind : c.findStream id = some it)
    (hsame : it'.isClosed = false → SameBody it' it) : KeepsBodies c c' := by
  cases h with
  | leaves hopen h => exact h.keepsBodies hfind (hsame hopen)
  | ends hclosed h => exact h.keepsBodies

theorem Client.BlockCase.keepsBodies {header : FrameHeader} (h : BlockCase c header it c')
    (hfind : c.findStream it.id = some it) : KeepsBodies c c' := by
  cases h with
  | part hend h => exact h.keepsBodies hfind fun _ => refl _
  | refused res hend h => exact h.keepsBodies
  | trailers hend htrailers h => exact h.keepsBodies hfind sameBody_afterFlags
  | informational res hend htrailers hfinal hes hinfo h =>
      exact h.keepsBodies hfind fun _ => sameBody_of_state rfl rfl rfl
  | final res hend htrailers hinfo h =>
      refine h.keepsBodies hfind fun hopen => ?_
      exact IsTrans.trans _ _ _ (sameBody_afterFlags hopen) (sameBody_of_state rfl rfl rfl)

theorem Client.PayloadCase.keepsBodies {header : FrameHeader} {payload : PayloadStage}
    (h : PayloadCase c header payload c') : KeepsBodies c c' := by
  cases h with
  | quiet hparts hopen hclosed hblock => exact keepsBodies_of_eq hopen
  | reset it ec htype hfind h => exact h.keepsBodies
  | data it r htype hfind hr h => exact h.keepsBodies hfind (sameBody_of_state rfl rfl rfl)
  | dataEnd it r htype hfind hr h =>
      refine h.keepsBodies hfind fun hopen => ?_
      exact IsTrans.trans _ _ _ (sameBody_afterFlags hopen) (sameBody_of_state rfl rfl rfl)
  | block it stage htype hfind hopen => exact keepsBodies_of_eq hopen
  | blockEnd it rbuf stage htype hfind h =>
      have hid : it.id = header.streamId := findStream_id hfind
      exact h.keepsBodies (by rw [hid]; exact hfind)

theorem Client.HeaderCase.keepsBodies {header : FrameHeader} (h : HeaderCase c header c') : KeepsBodies c c' := by
  cases h with
  | quiet htype hopen => exact keepsBodies_of_eq hopen
  | late it hfind hremote htype h => exact h.keepsBodies
  | headers it hfind hremote htype hphase h => exact h.keepsBodies hfind (sameBody_of_state rfl rfl rfl)
  | data it hfind hremote htype hphase hfits h => exact h.keepsBodies hfind (sameBody_of_state rfl rfl rfl)
  | overlong it hfind hremote htype hphase hfits h => exact h.keepsBodies
  | other it hfind hremote hheaders hdata hphase h => exact h.keepsBodies hfind (sameBody_of_state rfl rfl rfl)

/-- A stream behind the end of its body, if it is still open. -/
def staysOpen (s : Stream) : Option Stream :=
  if s.isHalfClosedLocal || s.isClosed || !s.body.isEmpty then some s
  else if s.sendES.isClosed then none else some s.sendES

/-- A stream that both sides have ended with the end of its body. -/
def getsClosed (s : Stream) : Option Stream :=
  if s.isHalfClosedLocal || s.isClosed || !s.body.isEmpty then none
  else if s.sendES.isClosed then some { s.sendES with rstEc := none, state := .closed } else none

theorem finishBody_eq {first last : List Stream} {s : Stream} (hopen : c.openStreams = first ++ s :: last)
    (hfirst : ∀ q ∈ first, q.id ≠ s.id) :
    (c.finishBody s).openStreams = first ++ (staysOpen s).toList ++ last ∧
      (c.finishBody s).closedStreams = c.closedStreams ++ (getsClosed s).toList := by
  have hmodify : (c.modifyStream s.id Stream.sendES).openStreams = first ++ s.sendES :: last := by
    rw [modifyStream, hopen]
    exact modify_append_cons (fun q hq => by simp [hfirst q hq]) (by simp) _
  unfold finishBody staysOpen getsClosed
  split
  · simp [hopen]
  · dsimp only
    split
    · have hfind : (c.modifyStream s.id Stream.sendES).findStream s.id = some s.sendES := by
        rw [findStream, hmodify, List.find?_append, List.find?_eq_none.2 fun q hq => by simp [hfirst q hq]]
        simp [Stream.sendES]
      have hends := closeOpenStream_ends hfind none false
      refine ⟨?_, ?_⟩
      · rw [hends.openStreams, abandon, hmodify]
        refine (eraseIdx_append_cons (fun q hq => by simp [hfirst q hq]) (by simp [Stream.sendES])).trans ?_
        simp
      · rw [hends.closedStreams]
        rfl
    · exact ⟨by simp [hmodify], by simp [modifyStream]⟩

/-- The streams whose bodies are at their end are closed on the client's side. -/
theorem finishBodies_eq (hids : c.streamIds.Nodup) :
    c.finishBodies.openStreams = c.openStreams.filterMap staysOpen ∧
      c.finishBodies.closedStreams = c.closedStreams ++ c.openStreams.filterMap getsClosed := by
  -- the loop goes over the streams as they were before it
  have hfold : ∀ (l : List Stream) (first : List Stream) (d : Client), d.openStreams = first ++ l →
      d.streamIds.Nodup → (l.foldl finishBody d).openStreams = first ++ l.filterMap staysOpen ∧
        (l.foldl finishBody d).closedStreams = d.closedStreams ++ l.filterMap getsClosed := by
    intro l
    induction l with
    | nil => exact fun first d hopen _ => ⟨by simpa using hopen, by simp⟩
    | cons s l ih =>
        intro first d hopen hnodup
        have hfirst : ∀ q ∈ first, q.id ≠ s.id := fun q hq hid => by
          rw [streamIds, hopen, List.map_append, List.nodup_append] at hnodup
          exact hnodup.2.2 q.id (List.mem_map_of_mem hq) s.id (List.mem_map_of_mem (List.mem_cons_self ..)) hid
        obtain ⟨hopen', hclosed'⟩ := finishBody_eq hopen hfirst
        have hrest := ih _ (d.finishBody s) hopen' ((finishBody_untouched d s).streamIds.nodup hnodup)
        rw [List.foldl_cons, hrest.1, hrest.2, hclosed']
        cases hs : staysOpen s <;> cases hc : getsClosed s <;> simp [hs, hc]
  exact hfold c.openStreams [] c rfl hids

theorem finishBodies_keepsBodies (hids : c.streamIds.Nodup) : KeepsBodies c c.finishBodies := by
  rw [KeepsBodies, (finishBodies_eq hids).1]
  refine sublistForall₂_filterMap fun s _ s' hs' => ?_
  unfold staysOpen at hs'
  split at hs'
  · rw [← Option.some.inj hs']
    exact refl _
  · rename_i hends
    split at hs'
    · cases hs'
    · refine Option.some.inj hs' ▸ ⟨rfl, rfl, fun h => absurd ?_ (Stream.hasBody_eq_true.1 h).2.2⟩
      simp only [Bool.or_eq_true, Bool.not_eq_true', not_or, Bool.not_eq_false] at hends
      simpa using hends.2

end KeepsBodies

/-! ## Steps of the system -/

/-- DATA frames are sent by the rounds alone. -/
theorem Action.perform_noData (c : Client) {a : Action} (ha : a ≠ .sendBodies) :
    ∀ header payload, SentFrame.data header payload ∉ (a.perform c).2 := by
  intro header payload
  cases a with
  | sendBodies => exact absurd rfl ha
  | connect => simp [Action.perform, sendPreface]
  | sendRequest => simp [Action.perform]
  | flush =>
      simp only [Action.perform, preparePendingSendQueue]
      split
      · simp
      · simp only [List.mem_append, List.mem_map, List.mem_replicate, streamWindowUpdates]
        split <;> simp
  | _ => exact List.not_mem_nil

theorem Step.dataFramesSent_of_none {x : Step} (h : ∀ header payload, SentFrame.data header payload ∉ x.output) :
    x.dataFramesSent = [] := by
  refine List.filterMap_eq_nil_iff.2 fun f hf => ?_
  cases f with
  | data header payload => exact absurd hf (h header payload)
  | _ => rfl

theorem Step.dataFramesSent_sendBodies {c : Client} {x : Step}
    (h : x.output = c.collectDataFrames.2.map fun frame => .data frame.1 frame.2) :
    x.dataFramesSent = c.collectDataFrames.2 := by
  rw [Step.dataFramesSent, h, List.filterMap_map]
  exact List.filterMap_some

section Steps

variable {s t : System} {a : Action} {out : List SentFrame} {xs ys : List Step}

/-- What a step does to the bodies of the open streams. -/
inductive BodyStep (s : System) (a : Action) (out : List SentFrame) (t : System) : Prop where
  | keeps (ha : a ≠ .sendBodies) (h : KeepsBodies s.client t.client)
      (hdata : Step.dataFramesSent ⟨s, a, out, t⟩ = [])
  | opens (ha : a = .sendRequest) (r : Stream) (id : Nat) (windowSize : Int) (hidle : r ∈ s.client.idleStreams)
      (h : t.client.openStreams = s.client.openStreams ++ [openedStream r id windowSize])
      (hdata : Step.dataFramesSent ⟨s, a, out, t⟩ = [])
  | sends (ha : a = .sendBodies) (h : t.client = s.client.collectDataFrames.1)
      (hout : out = s.client.collectDataFrames.2.map fun frame => .data frame.1 frame.2)
      (hdata : Step.dataFramesSent ⟨s, a, out, t⟩ = s.client.collectDataFrames.2)

theorem Action.perform_bodies {c : Client} (hids : c.streamIds.Nodup) {a : Action} (ha : a ≠ .sendBodies)
    (hopens : a ≠ .sendRequest) : KeepsBodies c (a.perform c).1 := by
  cases a with
  | sendBodies => exact absurd rfl ha
  | sendRequest => exact absurd rfl hopens
  | flush =>
      simp only [Action.perform, preparePendingSendQueue]
      split
      · exact keepsBodies_of_eq rfl
      · refine sublistForall₂_map fun r _ => ?_
        split
        · exact sameBody_of_state rfl rfl rfl
        · exact refl _
  | finishBodies => exact finishBodies_keepsBodies hids
  | abandon id => exact abandon_keepsBodies c id
  | maxHeadersSize n =>
      obtain ⟨sframe, heq⟩ := maxHeadersSize_eq c n
      rw [Action.perform, heq]
      exact keepsBodies_of_eq rfl
  | asyncClose ec =>
      simp only [Action.perform, Client.asyncClose]
      split <;> exact keepsBodies_of_eq rfl
  | _ => exact keepsBodies_of_eq rfl

theorem SystemInvariant.bodyStep (h : SystemInvariant s) (hstep : s.step a = some (t, out)) : BodyStep s a out t := by
  cases h.seen hstep with
  | header c header hlen heq hheader ha ht hstage hout =>
      subst ha ht hout
      exact .keeps (by simp) hheader.headerCase.keepsBodies rfl
  | payload header payload hlast hstage hacc hec ha ht hout =>
      subst ha ht hout
      exact .keeps (by simp) (processFramePayload_case hacc hec).keepsBodies rfl
  | done rbufExhausted ha ht hout =>
      subst ha ht hout
      exact .keeps (by simp) (keepsBodies_of_eq rfl) rfl
  | perform ha hparsing henabled ht hout =>
      have hclient : t.client = (a.perform s.client).1 := by rw [ht]
      by_cases hsends : a = .sendBodies
      · subst hsends
        exact .sends rfl hclient hout (Step.dataFramesSent_sendBodies hout)
      · have hnone : Step.dataFramesSent ⟨s, a, out, t⟩ = [] := by
          refine Step.dataFramesSent_of_none ?_
          rw [hout]
          exact Action.perform_noData s.client hsends
        by_cases hopens : a = .sendRequest
        · subst hopens
          obtain ⟨_, _, _, _, new, heq, -, hnew⟩ := sendOneStreamRequest_eq s.client
          have hstreams : t.client.openStreams = s.client.openStreams ++ new := by
            rw [hclient, Action.perform, heq]
          rcases hnew with rfl | ⟨r, hr, id, windowSize, rfl⟩
          · exact .keeps hsends (keepsBodies_of_eq (by rw [hstreams, List.append_nil])) hnone
          · exact .opens rfl r id windowSize hr hstreams hnone
        · refine .keeps hsends ?_ hnone
          rw [hclient]
          exact Action.perform_bodies h.parser.nodup hsends hopens

/-! ## What the peer and the requests decide -/

theorem onReceivedSetting_payloadSize {c : Client} (h : 2 ^ 14 ≤ c.peerMaxPayloadSize) (svalue : SettingValue) :
    2 ^ 14 ≤ (c.onReceivedSetting svalue).1.peerMaxPayloadSize := by
  unfold onReceivedSetting
  split
  case h_5 =>
    split
    · exact h
    · rename_i hsize
      simp only [Bool.or_eq_true, decide_eq_true_eq, not_or, Nat.not_lt] at hsize
      exact hsize.1
  all_goals exact h

theorem readSettings_payloadSize {c : Client} (h : 2 ^ 14 ≤ c.peerMaxPayloadSize) (payload : PayloadStage) :
    2 ^ 14 ≤ (c.readSettings payload).1.peerMaxPayloadSize := by
  fun_induction readSettings c payload with
  | case1 c payload hlt hshort => exact h
  | case2 c payload hlt hlong svalue next d ec hset =>
      have hone := onReceivedSetting_payloadSize (c := { c with rbuf := c.rbuf.drop SettingValue.neededWriteSize }) h svalue
      rw [hset] at hone
      exact hone
  | case3 c payload hlt hlong svalue next d hset ih =>
      have hone := onReceivedSetting_payloadSize (c := { c with rbuf := c.rbuf.drop SettingValue.neededWriteSize }) h svalue
      rw [hset] at hone
      exact ih hone
  | case4 c payload hge => exact h

theorem processSettingsFramePayload_payloadSize {c : Client} (h : 2 ^ 14 ≤ c.peerMaxPayloadSize) (header : FrameHeader)
    (payload : PayloadStage) : 2 ^ 14 ≤ (c.processSettingsFramePayload header payload).1.peerMaxPayloadSize := by
  have hread := readSettings_payloadSize h payload
  unfold processSettingsFramePayload
  rcases hresult : c.readSettings payload with ⟨d, payload', result⟩
  rw [hresult] at hread
  cases result with
  | exhausted => exact hread
  | error ec => exact hread
  | complete =>
      dsimp only
      split
      · exact hread
      · split
        · exact hread
        · rename_i oldest rest hpending
          obtain ⟨_, _, _, _, heq⟩ := applyLocalSettings_selfOnly { d with
            parserStage := .header, receivedConnectionSettings := true, receivedConnectionSettingsAck := true
            pendingAckSettings := rest } oldest
          rw [heq]
          exact hread

theorem processFramePayload_payloadSize {c : Client} (h : 2 ^ 14 ≤ c.peerMaxPayloadSize) (header : FrameHeader)
    (payload : PayloadStage) : 2 ^ 14 ≤ (c.processFramePayload header payload).1.peerMaxPayloadSize := by
  by_cases hsettings : header.type = .settings
  · simp only [processFramePayload, hsettings]
    exact processSettingsFramePayload_payloadSize h header payload
  · by_cases hping : header.type = .ping
    · simp only [processFramePayload, hping, processPingFramePayload]
      split
      · exact h
      · split
        · exact h
        · split <;> exact h
    · obtain ⟨_, _, _, _, _, _, _, _, _, _, _, heq⟩ := processFramePayload_parserOnly c payload hsettings hping
      rw [heq]
      exact h

/-- What a step between two calls of `parse_frames` leaves alone of the peer's settings, and the requests. -/
theorem Action.perform_requests (c : Client) (a : Action) :
    (a.perform c).1.peerMaxPayloadSize = c.peerMaxPayloadSize ∧
      ∀ r ∈ (a.perform c).1.idleStreams, r ∈ c.idleStreams ∨ a = .request r := by
  cases a with
  | flush =>
      simp only [Action.perform, preparePendingSendQueue]
      split <;> exact ⟨rfl, fun r hr => .inl hr⟩
  | sendRequest =>
      obtain ⟨_, _, _, _, _, heq, hidle, -⟩ := sendOneStreamRequest_eq c
      rw [Action.perform, heq]
      exact ⟨rfl, fun r hr => .inl (hidle hr)⟩
  | finishBodies =>
      obtain ⟨_, _, _, _, heq⟩ := finishBodies_streamsOnly c
      rw [Action.perform, heq]
      exact ⟨rfl, fun r hr => .inl hr⟩
  | request q =>
      refine ⟨rfl, fun r hr => ?_⟩
      rcases List.mem_append.1 hr with hold | hnew
      · exact .inl hold
      · exact .inr (by rw [List.mem_singleton.1 hnew])
  | abandonIdle i => exact ⟨rfl, fun r hr => .inl ((List.eraseIdx_sublist _ _).subset hr)⟩
  | maxHeadersSize n =>
      obtain ⟨sframe, heq⟩ := maxHeadersSize_eq c n
      rw [Action.perform, heq]
      exact ⟨rfl, fun r hr => .inl hr⟩
  | asyncClose ec =>
      simp only [Action.perform, Client.asyncClose]
      split <;> exact ⟨rfl, fun r hr => .inl hr⟩
  | _ => exact ⟨rfl, fun r hr => .inl hr⟩

/-- The frames of a stream are cut for the peer. -/
theorem SystemRun.payloadSize (h : SystemRun xs s) : 2 ^ 14 ≤ s.client.peerMaxPayloadSize := by
  induction h with
  | start => decide
  | next hrun hstep ih =>
      cases (SystemRun.invariant hrun).seen hstep with
      | header c header hlen heq hheader ha ht =>
          obtain ⟨windowSize, _, _, _, _, _, _, _, _, _, _, _, rfl⟩ := hheader.parserOnly
          rw [ht]
          exact ih
      | payload header payload hlast hstage hacc hec ha ht =>
          rw [ht]
          exact processFramePayload_payloadSize ih header payload
      | done rbufExhausted ha ht =>
          rw [ht]
          exact ih
      | perform ha hparsing henabled ht hout =>
          rw [ht, (Action.perform_requests _ _).1]
          exact ih

theorem System.idleStreams_of_step (hstep : s.step a = some (t, out)) :
    ∀ r ∈ t.client.idleStreams, r ∈ s.client.idleStreams ∨ a = .request r := by
  cases System.step_cases hstep with
  | next u ha hpass ht hout =>
      rw [ht]
      exact fun r hr => .inl ((parsePass_next hpass).2.keeps.idleStreams ▸ hr)
  | done c ha hdone ht hout =>
      obtain ⟨_, rfl⟩ := hdone.eq
      rw [ht]
      exact fun r hr => .inl hr
  | perform ha hparsing henabled ht hout =>
      rw [ht]
      exact (Action.perform_requests s.client a).2

/-- The size of the body of a request is not taken for zero. -/
def Action.keepsBody : Action → Bool
  | .request r => r.body.length % 2 ^ 32 != 0 || r.body.isEmpty
  | _ => true

/-- The bodies that are not sent are still to be sent. -/
structure Sendable (s : System) : Prop where
  idle : ∀ r ∈ s.client.idleStreams, r.body.length % 2 ^ 32 = 0 → r.body = []
  opened : ∀ r ∈ s.client.openStreams, r.body ≠ [] → r.hasBody = true

theorem Emits.origin {n : Nat} {l l' : List Stream} {frames : List (FrameHeader × Bytes)} (h : Emits n l frames l') :
    ∀ r' ∈ l', ∃ r ∈ l, r' = { r with body := r'.body } ∧ (r'.body ≠ [] → r.body ≠ []) := by
  induction h with
  | start => exact fun r hr => ⟨r, hr, rfl, fun h => h⟩
  | chunk h hbody ih =>
      rename_i frames first last q
      intro r' hr'
      simp only [List.mem_append, List.mem_cons] at hr'
      by_cases heq : r' = { q with body := q.body.drop (min n q.body.length) }
      · obtain ⟨r, hr, hrq, hne⟩ := ih q (by simp)
        refine ⟨r, hr, ?_, fun _ => hne (Stream.hasBody_eq_true.1 hbody).2.2⟩
        rw [heq, hrq]
      · refine ih r' ?_
        simp only [List.mem_append, List.mem_cons]
        rcases hr' with hr' | hr' | hr'
        · exact .inl hr'
        · exact absurd hr' heq
        · exact .inr (.inr hr')

theorem openedStream_body (r : Stream) (id : Nat) (windowSize : Int) : (openedStream r id windowSize).body = r.body := by
  unfold openedStream
  dsimp only
  split <;> rfl

theorem openedStream_state (r : Stream) (id : Nat) (windowSize : Int) : (openedStream r id windowSize).state =
    if r.body.length % 2 ^ 32 = 0 then .halfClosedLocal else .open := by
  by_cases hsize : r.body.length % 2 ^ 32 = 0
  · simp only [openedStream, Stream.sendH, hsize, if_true]
    rfl
  · simp only [openedStream, Stream.sendH, hsize, if_false]

theorem openedStream_hasBody {r : Stream} {id : Nat} {windowSize : Int} (hne : r.body ≠ [])
    (hsize : r.body.length % 2 ^ 32 ≠ 0) : (openedStream r id windowSize).hasBody = true := by
  rw [Stream.hasBody_eq_true, openedStream_body, Stream.isHalfClosedLocal, Stream.isClosed, openedStream_state,
    if_neg hsize]
  exact ⟨rfl, rfl, hne⟩

theorem Sendable.of_step (h : Sendable s) (hs : SystemInvariant s) (hstep : s.step a = some (t, out))
    (hbody : a.keepsBody = true) : Sendable t := by
  refine ⟨fun r hr hzero => ?_, ?_⟩
  · rcases System.idleStreams_of_step hstep r hr with hold | rfl
    · exact h.idle r hold hzero
    · simp only [Action.keepsBody, Bool.or_eq_true, bne_iff_ne, List.isEmpty_iff] at hbody
      exact hbody.resolve_left fun hsize => hsize hzero
  · cases hs.bodyStep hstep with
    | keeps ha hkeeps hdata =>
        intro r' hr' hne
        obtain ⟨r, hr, hsame⟩ := exists_of_sublistForall₂ hkeeps hr'
        exact hsame.hasBody (h.opened r hr (by rwa [← hsame.body]))
    | opens ha r id windowSize hidle heq hdata =>
        intro r' hr' hne
        rw [heq] at hr'
        rcases List.mem_append.1 hr' with hold | hnew
        · exact h.opened r' hold hne
        · rw [List.mem_singleton.1 hnew, openedStream_body] at hne
          rw [List.mem_singleton.1 hnew]
          exact openedStream_hasBody hne fun hzero => hne (h.idle r hidle hzero)
    | sends ha heq hout hdata =>
        intro r' hr' hne
        rw [heq] at hr'
        obtain ⟨r, hr, hrr', hbody'⟩ := (collectDataFrames_emits s.client).origin r' hr'
        have hhas := h.opened r hr (hbody' hne)
        rw [Stream.hasBody_eq_true] at hhas ⊢
        rw [hrr']
        exact ⟨hhas.1, hhas.2.1, hne⟩

theorem SystemRun.sendable (h : SystemRun xs s) (hbodies : ∀ x ∈ xs, x.action.keepsBody = true) : Sendable s := by
  induction h with
  | start => exact ⟨by simp, by simp⟩
  | next hrun hstep ih =>
      refine Sendable.of_step (ih fun x hx => hbodies x (List.mem_append_left _ hx)) (SystemRun.invariant hrun) hstep ?_
      exact hbodies _ (List.mem_append_right _ (List.mem_singleton.2 rfl))

/-! ## A stream that is not closed -/

/-- The number of the rounds of a run. -/
def rounds (ys : List Step) : Nat := ys.countP fun x => x.action = .sendBodies

/-- A stream with an identifier that was in use was open before the step. -/
theorem exists_of_step (h : SystemInvariant s) (hstep : s.step a = some (t, out)) {id : Nat}
    (hle : id ≤ s.client.lastClientId) (hmem : id ∈ t.client.streamIds) : ∃ r ∈ s.client.openStreams, r.id = id := by
  by_contra hnone
  refine ((h.idsGrow hstep).closed hle fun hmem' => hnone ?_).2 hmem
  exact List.mem_map.1 hmem'

theorem mem_of_opens {c c' : Client} {new : Stream} (hids : c'.streamIds.Nodup)
    (heq : c'.openStreams = c.openStreams ++ [new]) {r r' : Stream} (hr : r ∈ c.openStreams) (hr' : r' ∈ c'.openStreams)
    (hid : r'.id = r.id) : r' ∈ c.openStreams := by
  have hmem : r ∈ c'.openStreams := by
    rw [heq]
    exact List.mem_append_left _ hr
  rw [eq_of_ids hids hr' hmem hid]
  exact hr

theorem maxChunkSize_pos (h : SystemRun xs s) : 0 < s.client.maxChunkSize := by
  have := h.payloadSize
  unfold maxChunkSize
  omega

theorem SystemRun.lastClientId_le (ht : SystemRun xs t) {u : System} (hys : Run System.step t ys u) :
    t.client.lastClientId ≤ u.client.lastClientId := by
  induction hys with
  | start => exact Nat.le_refl _
  | next hys hstep ih => exact ih.trans ((SystemRun.invariant (ht.append hys)).idsGrow hstep).lastClientId

theorem SystemRun.bodySent (ht : SystemRun xs t) {r : Stream} (hr : r ∈ t.client.openStreams) {u : System}
    (hys : Run System.step t ys u) :
    ∀ r' ∈ u.client.openStreams, r'.id = r.id → BodySent r.body (ys.flatMap (Step.dataSent r.id)) r'.body := by
  have hle : r.id ≤ t.client.lastClientId := ht.invariant.parser.ids r.id (List.mem_map_of_mem hr)
  induction hys with
  | start =>
      intro r' hr' hid
      rw [eq_of_ids ht.invariant.parser.nodup hr' hr hid]
      exact bodySent_start r.body
  | next hys hstep ih =>
      rename_i ys v w a out
      intro r' hr' hid
      have hv : SystemInvariant v := SystemRun.invariant (ht.append hys)
      have hw : SystemInvariant w := hv.of_step hstep
      obtain ⟨q, hq, hqid⟩ :=
        exists_of_step hv hstep (hle.trans (ht.lastClientId_le hys)) (hid ▸ List.mem_map_of_mem hr')
      have hsent := ih q hq hqid
      rw [List.flatMap_append, List.flatMap_singleton]
      cases hv.bodyStep hstep with
      | keeps ha hkeeps hdata =>
          obtain ⟨old, hold, hsame⟩ := exists_of_sublistForall₂ hkeeps hr'
          rw [Step.dataSent, hdata, List.filter_nil, List.append_nil, hsame.body]
          exact ih old hold (hsame.id.symm.trans hid)
      | opens ha new id windowSize hidle heq hdata =>
          rw [Step.dataSent, hdata, List.filter_nil, List.append_nil]
          exact ih r' (mem_of_opens hw.parser.nodup heq hq hr' (hid.trans hqid.symm)) hid
      | sends ha heq hout hdata =>
          obtain ⟨rest, hrest, hsent'⟩ :=
            (collectDataFrames_emits v.client).bodySent (maxChunkSize_pos (ht.append hys)) hv.parser.nodup hq hsent
          have hr'eq : r' = { q with body := rest } :=
            eq_of_ids hw.parser.nodup hr' (show _ ∈ w.client.openStreams by rw [heq]; exact hrest) (hid.trans hqid.symm)
          rw [hqid] at hsent'
          rw [hr'eq, Step.dataSent, hdata]
          exact hsent'

theorem backlog_append {id : Nat} {l : List Stream} (hmem : id ∈ l.map Stream.id) (l' : List Stream) :
    backlog id (l ++ l') = backlog id l := by
  induction l with
  | nil => cases hmem
  | cons s l ih =>
      simp only [List.cons_append, backlog]
      split
      · rfl
      · rename_i hne
        rw [ih ((List.mem_cons.1 hmem).resolve_left fun h => hne h.symm)]

theorem backlog_pos {l : List Stream} (hids : (l.map Stream.id).Nodup) {r : Stream} (hr : r ∈ l) (hne : r.body ≠ []) :
    0 < backlog r.id l := by
  induction l with
  | nil => cases hr
  | cons s l ih =>
      simp only [List.map_cons, List.nodup_cons] at hids
      have hlen : 0 < r.body.length := List.length_pos_iff.2 hne
      rcases List.mem_cons.1 hr with rfl | hr
      · simp only [backlog]
        omega
      · have hid : s.id ≠ r.id := fun hid => hids.1 (by rw [hid]; exact List.mem_map_of_mem hr)
        have := ih hids.2 hr
        simp only [backlog, hid, if_false]
        omega

theorem KeepsBodies.spends {c c' : Client} (h : KeepsBodies c c') :
    List.SublistForall₂ Spends c'.openStreams c.openStreams :=
  sublistForall₂_imp (fun _ _ hsame => ⟨hsame.id, by rw [hsame.body]⟩) h

/-- Every round brings a body nearer to its end, whatever is opened behind it. -/
theorem SystemRun.backlog_le (ht : SystemRun xs t) (hxs : ∀ x ∈ xs, x.action.keepsBody = true) {r : Stream}
    (hr : r ∈ t.client.openStreams) {u : System} (hys : Run System.step t ys u)
    (hbodies : ∀ x ∈ ys, x.action.keepsBody = true) : ∀ r' ∈ u.client.openStreams, r'.id = r.id → r'.body ≠ [] →
      backlog r.id u.client.openStreams + rounds ys ≤ backlog r.id t.client.openStreams := by
  have hle : r.id ≤ t.client.lastClientId := ht.invariant.parser.ids r.id (List.mem_map_of_mem hr)
  induction hys with
  | start => exact fun r' hr' hid hne => Nat.le_refl _
  | next hys hstep ih =>
      rename_i ys v w a out
      intro r' hr' hid hne
      have hprev : ∀ x ∈ ys, x.action.keepsBody = true := fun x hx => hbodies x (List.mem_append_left _ hx)
      have hv : SystemInvariant v := SystemRun.invariant (ht.append hys)
      have hw : SystemInvariant w := hv.of_step hstep
      have hmem : r.id ∈ w.client.streamIds := hid ▸ List.mem_map_of_mem hr'
      obtain ⟨q, hq, hqid⟩ := exists_of_step hv hstep (hle.trans (ht.lastClientId_le hys)) hmem
      have hrounds : rounds (ys ++ [⟨v, a, out, w⟩]) = rounds ys + if a = .sendBodies then 1 else 0 := by
        simp only [rounds, List.countP_append, List.countP_singleton, decide_eq_true_eq]
      rw [hrounds]
      cases hv.bodyStep hstep with
      | keeps ha hkeeps hdata =>
          obtain ⟨old, hold, hsame⟩ := exists_of_sublistForall₂ hkeeps hr'
          have hbefore := ih hprev old hold (hsame.id.symm.trans hid) (by rwa [← hsame.body])
          have hafter := Http2.backlog_le hkeeps.spends hv.parser.nodup hmem
          rw [if_neg ha]
          omega
      | opens ha new id windowSize hidle heq hdata =>
          have hbefore := ih hprev r' (mem_of_opens hw.parser.nodup heq hq hr' (hid.trans hqid.symm)) hid hne
          rw [heq, backlog_append (hqid ▸ List.mem_map_of_mem hq), if_neg (by simp [ha])]
          exact hbefore
      | sends ha heq hout hdata =>
          obtain ⟨old, hold, hrr', hbody⟩ := (collectDataFrames_emits v.client).origin r' (by rw [← heq]; exact hr')
          have holdid : old.id = r.id := by rw [← hid, hrr']
          have hbefore := ih hprev old hold holdid (hbody hne)
          have hsendable := SystemRun.sendable (ht.append hys) fun x hx => (List.mem_append.1 hx).elim (hxs x) (hprev x)
          have hround := (collectDataFrames_progress (maxChunkSize_pos (ht.append hys)) hv.parser.nodup hold
            (hsendable.opened old hold (hbody hne))).2
          rw [holdid, ← heq] at hround
          rw [if_pos ha]
          omega

theorem SystemRun.sendBodies_of_dataSent (h : SystemRun xs s) (hstep : s.step a = some (t, out)) {id : Nat}
    {frame : FrameHeader × Bytes} (hframe : frame ∈ Step.dataSent id ⟨s, a, out, t⟩) :
    a = .sendBodies ∧ frame ∈ s.client.collectDataFrames.2 := by
  cases h.invariant.bodyStep hstep with
  | keeps ha hkeeps hdata => rw [Step.dataSent, hdata] at hframe; cases hframe
  | opens ha r id' windowSize hidle heq hdata => rw [Step.dataSent, hdata] at hframe; cases hframe
  | sends ha heq hout hdata =>
      rw [Step.dataSent, hdata] at hframe
      exact ⟨ha, (List.mem_filter.1 hframe).1⟩

/-- What a round is to the peer: its frames fit, and are written as they are. -/
theorem SystemRun.round (h : SystemRun xs s) (hstep : s.step .sendBodies = some (t, out)) :
    out = s.client.collectDataFrames.2.map (fun frame => .data frame.1 frame.2) ∧
      (∀ frame ∈ s.client.collectDataFrames.2, frame.2.length ≤ s.client.peerMaxPayloadSize) ∧
      (makeFramesBuffers s.client.collectDataFrames.2).flatten = out.flatMap SentFrame.buffer := by
  cases h.invariant.bodyStep hstep with
  | keeps ha => exact absurd rfl ha
  | opens ha => cases ha
  | sends ha heq hout hdata =>
      subst hout
      refine ⟨rfl, fun frame hframe => ?_, ?_⟩
      · have hle := (collectDataFrames_emits s.client).length_le frame hframe
        exact hle.trans (Nat.min_le_left _ _)
      · rw [makeFramesBuffers, List.flatMap_map, List.flatten_eq_flatMap, List.flatMap_assoc]
        exact List.flatMap_congr fun frame _ => by simp [SentFrame.buffer]

end Steps

/-! ## Amounts -/

/-- The size of the bodies of the streams with identifiers that are counted. -/
def bodySizes (counted : Nat → Bool) (l : List Stream) : Nat := ((l.filter fun s => counted s.id).map (·.body.length)).sum

/-- The length of the DATA frames with identifiers that are counted. -/
def dataSizes (counted : Nat → Bool) (frames : List (FrameHeader × Bytes)) : Nat :=
  ((frames.filter fun frame => counted frame.1.streamId).map (·.2.length)).sum

section Amounts

variable {counted : Nat → Bool} {xs : List Step} {s t : System} {a : Action} {out : List SentFrame}

theorem bodySizes_append (l l' : List Stream) : bodySizes counted (l ++ l') = bodySizes counted l + bodySizes counted l' := by
  simp [bodySizes]

theorem bodySizes_cons (r : Stream) (l : List Stream) :
    bodySizes counted (r :: l) = (if counted r.id then r.body.length else 0) + bodySizes counted l := by
  by_cases h : counted r.id <;> simp [bodySizes, h]

theorem bodySizes_le (counted : Nat → Bool) {l l' : List Stream} (h : List.SublistForall₂ Spends l' l) :
    bodySizes counted l' ≤ bodySizes counted l := by
  induction h with
  | nil => exact Nat.zero_le _
  | cons hspends _ ih =>
      have hbody := hspends.body
      rw [bodySizes_cons, bodySizes_cons, hspends.id]
      split <;> omega
  | cons_right _ ih =>
      rw [bodySizes_cons]
      omega

theorem dataSizes_append (l l' : List (FrameHeader × Bytes)) :
    dataSizes counted (l ++ l') = dataSizes counted l + dataSizes counted l' := by
  simp [dataSizes]

/-- What the frames of a round carry is missing from the bodies. -/
theorem Emits.bodySizes {n : Nat} {l l' : List Stream} {frames : List (FrameHeader × Bytes)} (h : Emits n l frames l')
    (counted : Nat → Bool) : dataSizes counted frames + bodySizes counted l' = bodySizes counted l := by
  induction h with
  | start => simp [dataSizes]
  | chunk h hbody ih =>
      rename_i frames first last q
      rw [bodySizes_append, bodySizes_cons] at ih
      rw [dataSizes_append, bodySizes_append, bodySizes_cons]
      by_cases hq : counted q.id
      · simp only [dataSizes, dataFrameHeader, hq, List.filter_singleton, cond_true, List.map_cons, List.map_nil,
          List.sum_cons, List.sum_nil, List.length_take, List.length_drop, if_true] at ih ⊢
        omega
      · simp only [dataSizes, dataFrameHeader, hq, List.filter_singleton, cond_false, List.map_nil, List.sum_nil] at ih ⊢
        simpa using ih

/-- What is sent and what is left of the bodies is not more than the bodies of the streams that were opened. -/
theorem SystemRun.bodySizes (h : SystemRun xs s) (counted : Nat → Bool) :
    dataSizes counted (xs.flatMap Step.dataFramesSent) + bodySizes counted s.client.openStreams ≤
      bodySizes counted (xs.flatMap Step.opened) := by
  induction h with
  | start => exact Nat.le_refl _
  | next hrun hstep ih =>
      rename_i xs s t a out
      rw [List.flatMap_append, List.flatMap_append, List.flatMap_singleton, List.flatMap_singleton, dataSizes_append,
        bodySizes_append]
      cases (SystemRun.invariant hrun).bodyStep hstep with
      | keeps ha hkeeps hdata =>
          have hle := bodySizes_le counted hkeeps.spends
          rw [hdata]
          have hzero : dataSizes counted [] = 0 := rfl
          omega
      | opens ha r id windowSize hidle heq hdata =>
          have hopened : Step.opened ⟨s, a, out, t⟩ = [openedStream r id windowSize] := by
            simp [Step.opened, ha, heq]
          rw [hdata, heq, bodySizes_append, hopened]
          have hzero : dataSizes counted [] = 0 := rfl
          omega
      | sends ha heq hout hdata =>
          have hround := (collectDataFrames_emits s.client).bodySizes counted
          rw [hdata, heq]
          omega

end Amounts

end Rad.Http2
