import LibLisa.Observer.Queue

/-!
# Histories and steps of the shared memory queue

The history of a run counts its requests from the beginning, and `History.Allows` says which events
are right after a history. `Queue.At` reads the private positions of one side as remainders of such
counts. `HostStep` lists what a step of the host can do; the invariants are proved from it.
-/

namespace LibLisa.Observer

open Lib Lib.Ring Except

variable {α β : Type} {l : Layout} {index : ℕ}

/-! ## Histories -/

/-- The requests of a run, and how far they are. -/
structure History (α β : Type) where
  submissions : List (Submission α β)
  /-- Where the client processed the requests. -/
  processed : List (ℕ × List ℕ)
  /-- The number of requests whose results have been received. -/
  received : ℕ
  /-- The number of requests before the latest batch. -/
  batchStart : ℕ
  /-- The number of results of the latest batch. -/
  yields : ℕ

namespace History

/-- The history with one more event. -/
def record (h : History α β) : Event α β → History α β
  | .batch => { h with batchStart := h.submissions.length, yields := 0 }
  | .enqueued s => { h with submissions := h.submissions ++ [s] }
  | .processed frame pages => { h with processed := h.processed ++ [(frame, pages)] }
  | .discarded => { h with received := h.received + 1 }
  | .yielded _ => { h with received := h.received + 1, yields := h.yields + 1 }
  | .pageWritten _ | .frameWritten _ => h

/-- The history of the events of a run, the latest first. -/
def ofEvents : List (Event α β) → History α β
  | [] => ⟨[], [], 0, 0, 0⟩
  | e :: events => (ofEvents events).record e

/-- The requests that were enqueued and whose results have not been received. -/
def inFlight (h : History α β) : List (Submission α β) := h.submissions.drop h.received

/-- The requests of the latest batch. -/
def batchSubmissions (h : History α β) : List (Submission α β) := h.submissions.drop h.batchStart

/-- The number of pages of the first requests. -/
def pagesBefore (h : History α β) (i : ℕ) : ℕ :=
  ((h.submissions.take i).map (·.pages.length)).sum

end History

/-- What was read is what the client left of the request, read where the request was written. -/
structure Reading.IsResultOf (o : Observation α β) (r : Reading α β) (s : Submission α β) : Prop where
  entry_eq : r.entry = s.request
  frame_eq : r.frame = s.frame
  pages_eq : r.pages = s.pages
  data_eq : r.data = o.frame s.data s.contents
  contents_eq : r.contents = (List.range s.pages.length).map (o.page s.data s.contents)

/-- The host writes nothing that belongs to a request in flight, and a batch yields the result of
its next request, after the client has processed it there. -/
def History.Allows (o : Observation α β) (h : History α β) : Event α β → Prop
  | .pageWritten page => ∀ s ∈ h.inFlight, page ∉ s.pages
  | .frameWritten frame => ∀ s ∈ h.inFlight, frame ≠ s.frame
  | .yielded r => ∃ s, h.batchSubmissions[h.yields]? = some s ∧ r.IsResultOf o s ∧
      h.processed[h.batchStart + h.yields]? = some (s.frame, s.pages)
  | _ => True

/-! ## Queue positions -/

/-- The side has read up to position `r`, and has last seen a position up to `c`. -/
structure Queue.At (l : Layout) (q : Queue) (r c : ℕ) : Prop where
  readIndex_eq : q.readIndex = r % l.numCommandFrames
  exists_cached : ∃ p, r ≤ p ∧ p ≤ c ∧ q.cachedCurrentPos = p % l.numCommandFrames

namespace Queue.At

variable {l : Layout} {q : Queue} {r c : ℕ}

section

variable (h : q.At l r c)
include h

lemma le : r ≤ c := by
  obtain ⟨p, hrp, hpc, -⟩ := h.exists_cached
  exact hrp.trans hpc

lemma mono {c' : ℕ} (hc : c ≤ c') : q.At l r c' := by
  obtain ⟨p, hrp, hpc, hp⟩ := h.exists_cached
  exact ⟨h.readIndex_eq, p, hrp, hpc.trans hc, hp⟩

/-- A frame is available if it has been seen, or if the counter is ahead. -/
lemma requestAvailable (hw : c < r + l.numCommandFrames) :
    ((q.requestAvailable l (c % l.numCommandFrames)).1 = false ∧ r = c ∧
        (q.requestAvailable l (c % l.numCommandFrames)).2.At l r c) ∨
      ((q.requestAvailable l (c % l.numCommandFrames)).1 = true ∧
        (q.requestAvailable l (c % l.numCommandFrames)).2.At l r c ∧
        (q.requestAvailable l (c % l.numCommandFrames)).2.readIndex ≠
          (q.requestAvailable l (c % l.numCommandFrames)).2.cachedCurrentPos) := by
  unfold Queue.requestAvailable
  by_cases hne : q.readIndex ≠ q.cachedCurrentPos
  · rw [if_pos hne]
    exact Or.inr ⟨rfl, h, hne⟩
  · rw [if_neg hne, Nat.mod_mod]
    have hat : Queue.At l ⟨q.readIndex, c % l.numCommandFrames⟩ r c :=
      ⟨h.readIndex_eq, c, h.le, le_refl c, rfl⟩
    by_cases heq : q.readIndex = c % l.numCommandFrames
    · refine Or.inl ⟨by simpa using heq, ?_, hat⟩
      rw [h.readIndex_eq] at heq
      exact (mod_inj h.le hw).mp heq
    · exact Or.inr ⟨by simpa using heq, hat, heq⟩

/-- Taking a frame that is available. -/
lemma dequeue (hne : q.readIndex ≠ q.cachedCurrentPos) :
    Queue.At l { q with readIndex := (q.readIndex + 1) % l.numCommandFrames } (r + 1) c := by
  obtain ⟨p, hrp, hpc, hp⟩ := h.exists_cached
  have hrp' : r ≠ p := by
    rintro rfl
    exact hne (h.readIndex_eq.trans hp.symm)
  refine ⟨?_, p, by omega, hpc, hp⟩
  rw [h.readIndex_eq, Nat.mod_add_mod]

/-- Either everything has been read, or the next frame is taken. -/
lemma tryDequeue (hw : c < r + l.numCommandFrames) :
    (∃ q', q.tryDequeue l (c % l.numCommandFrames) = (none, q') ∧ q'.At l r c ∧ r = c) ∨
      ∃ q', q.tryDequeue l (c % l.numCommandFrames) = (some (r % l.numCommandFrames), q') ∧
        q'.At l (r + 1) c := by
  unfold Queue.tryDequeue
  rcases h.requestAvailable hw with ⟨hfalse, hrc, hat⟩ | ⟨htrue, hat, hne⟩
  · refine Or.inl ⟨_, ?_, hat, hrc⟩
    simp only [hfalse]
    rfl
  · refine Or.inr ⟨_, ?_, hat.dequeue hne⟩
    simp only [htrue, if_true, hat.readIndex_eq]

/-- The client asks twice, the second time without reading the counter. -/
lemma receiveRequest (hw : c < r + l.numCommandFrames) :
    (∃ q', Client.receiveRequest l (c % l.numCommandFrames) q = (none, q') ∧ q'.At l r c) ∨
      ∃ q', Client.receiveRequest l (c % l.numCommandFrames) q =
          (some (r % l.numCommandFrames), q') ∧ q'.At l (r + 1) c := by
  unfold Client.receiveRequest
  rcases h.requestAvailable hw with ⟨hfalse, -, hat⟩ | ⟨htrue, hat, -⟩
  · refine Or.inl ⟨_, ?_, hat⟩
    simp only [hfalse]
    rfl
  · simp only [htrue]
    rcases hat.tryDequeue hw with ⟨q', hq', hat', -⟩ | ⟨q', hq', hat'⟩
    · exact Or.inl ⟨q', hq', hat'⟩
    · exact Or.inr ⟨q', hq', hat'⟩

end

end Queue.At

/-! ## What a step of the host can do -/

/-- The steps of the host, with what decides each of them. -/
inductive HostStep (l : Layout) (m : Shared α β) (h : Host α β) :
    Shared α β → Host α β → Option (Event α β) → Prop
  | start (hpc : h.pc = .idle) :
      HostStep l m h m
        { h with pc := if h.numToDiscard > 0 then .makeRoom else .ready [] false } (some .batch)
  | roomMade {q} (hpc : h.pc = .makeRoom) (hq : h.queue.tryDequeue l m.current = (none, q)) {pc}
      (hnext : pc = .makeRoom ∨ h.queueFull l = false ∧ pc = .ready [] false) :
      HostStep l m h m { h with queue := q, pc } none
  | dequeueStale {q frame} (hpc : h.pc = .makeRoom)
      (hq : h.queue.tryDequeue l m.current = (some frame, q)) :
      HostStep l m h m { h with queue := q, pc := .discard frame } none
  | discard {frame} (hpc : h.pc = .discard frame)
      (hlen : (m.commandFrames frame).mappings.length ≤ h.pageFramesAllocated)
      (hqueued : 0 < h.numQueued) (hdiscard : 0 < h.numToDiscard) :
      HostStep l m h m
        { h with
          pageFramesAllocated := h.pageFramesAllocated - (m.commandFrames frame).mappings.length
          numQueued := h.numQueued - 1
          numToDiscard := h.numToDiscard - 1
          pc := if h.numToDiscard - 1 = 0 then .ready [] false else .makeRoom }
        (some .discarded)
  | drop {queue fused} (hpc : h.pc = .ready queue fused) :
      HostStep l m h m { h with numToDiscard := h.numQueued, pc := .idle } none
  | next {queue fused} (hpc : h.pc = .ready queue fused) :
      HostStep l m h m { h with pc := .fill queue fused } none
  | filled {queue fused} (hpc : h.pc = .fill queue fused) (fused' : Bool) :
      HostStep l m h m { h with pc := Host.popFront queue fused' } none
  | take {queue} (hpc : h.pc = .fill queue false)
      (hroom : h.queueFull l = false) (request : Request α β) :
      HostStep l m h m { h with pc := .setup queue request [] [] } none
  | allocate {queue request pages contents} (hpc : h.pc = .setup queue request pages contents)
      {setupPage} (hsetup : request.setupPages[contents.length]? = some setupPage)
      (hroom : h.pageFramesAllocated + 1 < l.numPageFrames)
      (hindex : h.nextPageFrame < l.numPageFrames) {index}
      (hi : index = h.nextPageFrame + l.minIndex) :
      HostStep l m h
        { m with
          pageFrames := Function.update m.pageFrames index (setupPage (m.pageFrames index)) }
        { h with
          nextPageFrame := (h.nextPageFrame + 1) % l.numPageFrames
          pageFramesAllocated := h.pageFramesAllocated + 1
          pc := .setup queue request (pages ++ [index % 2 ^ 16])
            (contents ++ [setupPage (m.pageFrames index)]) } (some (.pageWritten index))
  | writeFrame {queue request pages contents} (hpc : h.pc = .setup queue request pages contents)
      (hsetup : request.setupPages[contents.length]? = none)
      (hlen : pages.length ≤ maxMappings) {data}
      (hdata : data = request.setupFrame (m.commandFrames h.nextCommandFrame).data) :
      HostStep l m h
        { m with
          commandFrames := Function.update m.commandFrames h.nextCommandFrame ⟨pages, data⟩ }
        { h with pc := .updateNext queue ⟨request, h.nextCommandFrame, pages, data, contents⟩ }
        (some (.frameWritten h.nextCommandFrame))
  | enqueue {queue s} (hpc : h.pc = .updateNext queue s) :
      HostStep l m h { m with next := (h.nextCommandFrame + 1) % l.numCommandFrames }
        { h with
          nextCommandFrame := (h.nextCommandFrame + 1) % l.numCommandFrames
          numQueued := h.numQueued + 1
          pc := .fill (queue ++ [s.request]) false }
        (some (.enqueued s))
  | wait {queue fused entry q} (hpc : h.pc = .receive queue fused entry)
      (hq : h.queue.tryDequeue l m.current = (none, q)) :
      HostStep l m h m { h with queue := q } none
  | dequeue {queue fused entry q frame} (hpc : h.pc = .receive queue fused entry)
      (hq : h.queue.tryDequeue l m.current = (some frame, q)) :
      HostStep l m h m { h with queue := q, pc := .account queue fused entry frame } none
  | discardLate {queue fused entry frame} (hpc : h.pc = .account queue fused entry frame)
      (hlen : (m.commandFrames frame).mappings.length ≤ h.pageFramesAllocated)
      (hqueued : 0 < h.numQueued) (hdiscard : 0 < h.numToDiscard) :
      HostStep l m h m
        { h with
          pageFramesAllocated := h.pageFramesAllocated - (m.commandFrames frame).mappings.length
          numQueued := h.numQueued - 1
          numToDiscard := h.numToDiscard - 1
          pc := .receive queue fused entry }
        (some .discarded)
  | account {queue fused entry frame} (hpc : h.pc = .account queue fused entry frame)
      (hlen : (m.commandFrames frame).mappings.length ≤ h.pageFramesAllocated)
      (hqueued : 0 < h.numQueued) (hdiscard : h.numToDiscard = 0) :
      HostStep l m h m
        { h with
          pageFramesAllocated := h.pageFramesAllocated - (m.commandFrames frame).mappings.length
          numQueued := h.numQueued - 1
          pc := .readPages queue fused
            ⟨entry, frame, (m.commandFrames frame).mappings, (m.commandFrames frame).data, []⟩ }
        none
  | readPage {queue fused r} (hpc : h.pc = .readPages queue fused r) {index}
      (hindex : r.pages[r.contents.length]? = some index)
      (hpage : l.minIndex ≤ index ∧ index < l.minIndex + l.numPageFrames) :
      HostStep l m h m
        { h with
          pc := .readPages queue fused
            { r with contents := r.contents ++ [m.pageFrames index] } } none
  | yield {queue fused r}
      (hpc : h.pc = .readPages queue fused r) (hend : r.pages[r.contents.length]? = none) :
      HostStep l m h m { h with pc := .ready queue fused } (some (.yielded r))

lemma checkPage_eq_ok :
    Host.checkPage l index = .ok () ↔
      l.minIndex ≤ index ∧ index < l.minIndex + l.numPageFrames := by
  unfold Host.checkPage
  by_cases h : l.minIndex ≤ index ∧ index < l.minIndex + l.numPageFrames
  · simp only [h, and_self, if_true]
  · simp only [h, iff_false]
    exact nofun

lemma accountFor_eq_ok {mappings : List ℕ} {h h' : Host α β}
    (hok : h.accountFor mappings = .ok h') :
    mappings.length ≤ h.pageFramesAllocated ∧ 0 < h.numQueued ∧
      h' = { h with
        pageFramesAllocated := h.pageFramesAllocated - mappings.length
        numQueued := h.numQueued - 1 } := by
  unfold Host.accountFor at hok
  split at hok
  · cases hok
  next hle =>
    obtain rfl := ok.inj hok
    exact ⟨by omega, by omega, rfl⟩

lemma discardOne_eq_ok {h h' : Host α β} (hok : h.discardOne = .ok h') :
    0 < h.numToDiscard ∧ h' = { h with numToDiscard := h.numToDiscard - 1 } := by
  unfold Host.discardOne at hok
  split at hok
  · cases hok
  next hne =>
    obtain rfl := ok.inj hok
    exact ⟨Nat.pos_of_ne_zero hne, rfl⟩

lemma allocatePage_eq_ok {h h' : Host α β} (hok : h.allocatePage l = .ok (index, h')) :
    index = h.nextPageFrame + l.minIndex ∧ h.pageFramesAllocated + 1 < l.numPageFrames ∧
      h.nextPageFrame < l.numPageFrames ∧
      h' = { h with
        nextPageFrame := (h.nextPageFrame + 1) % l.numPageFrames
        pageFramesAllocated := h.pageFramesAllocated + 1 } := by
  unfold Host.allocatePage at hok
  dsimp only at hok
  split at hok
  · cases hok
  next hroom =>
    obtain ⟨_, hcheck, hok⟩ := ok_of_bind hok
    obtain ⟨rfl, rfl⟩ := ok_pair_inj hok
    have hpage := checkPage_eq_ok.mp hcheck
    exact ⟨rfl, Nat.lt_of_not_le hroom, by omega, rfl⟩

lemma HostStep.of_eq {m m₁ m' : Shared α β} {h h₁ h' : Host α β}
    {e e₁ : Option (Event α β)} (hok : (Except.ok (m₁, h₁, e₁) : Partial _) = .ok (m', h', e))
    (hstep : HostStep l m h m₁ h₁ e₁) : HostStep l m h m' h' e := by
  obtain ⟨rfl, rfl, rfl⟩ := ok.inj hok
  exact hstep

lemma hostStep_of_ok {input : HostInput α β} {m m' : Shared α β} {h h' : Host α β}
    {e : Option (Event α β)} (hok : h.step l input m = .ok (m', h', e)) :
    HostStep l m h m' h' e := by
  unfold Host.step at hok
  split at hok
  next hpc =>
    exact .of_eq hok (.start hpc)
  next hpc =>
    split at hok
    next hq =>
      exact .of_eq hok (.dequeueStale hpc hq)
    next q hq =>
      obtain ⟨rfl, rfl, rfl⟩ := ok.inj hok
      refine .roomMade hpc hq ?_
      by_cases hfull : Host.queueFull l { h with queue := q } = true
      · exact Or.inl (if_pos hfull)
      · exact Or.inr ⟨Bool.eq_false_iff.mpr hfull, if_neg hfull⟩
  next frame hpc =>
    obtain ⟨h₁, h₂, h₁ok, h₂ok, hok⟩ := ok_of_bind₂ hok
    obtain ⟨hlen, hqueued, rfl⟩ := accountFor_eq_ok h₁ok
    obtain ⟨hdiscard, rfl⟩ := discardOne_eq_ok h₂ok
    exact .of_eq hok (.discard hpc hlen hqueued hdiscard)
  next queue fused hpc =>
    split at hok
    · exact .of_eq hok (.drop hpc)
    · exact .of_eq hok (.next hpc)
  next queue fused hpc =>
    split at hok
    · exact .of_eq hok (.filled hpc fused)
    next hroom =>
      rw [Bool.or_eq_true, not_or] at hroom
      split at hok
      · exact .of_eq hok (.filled hpc true)
      next request _ =>
        obtain ⟨rfl, rfl, rfl⟩ := ok.inj hok
        obtain rfl := Bool.eq_false_iff.mpr hroom.2
        exact .take hpc (Bool.eq_false_iff.mpr hroom.1) request
  next queue request pages contents hpc =>
    split at hok
    next setupPage hsetup =>
      obtain ⟨⟨index, h₁⟩, h₁ok, hok⟩ := ok_of_bind hok
      obtain ⟨hi, hroom, hindex, rfl⟩ := allocatePage_eq_ok h₁ok
      exact .of_eq hok (.allocate hpc hsetup hroom hindex hi)
    next hsetup =>
      split at hok
      · cases hok
      next hlen =>
        exact .of_eq hok (.writeFrame hpc hsetup (Nat.le_of_not_lt hlen) rfl)
  next queue s hpc =>
    exact .of_eq hok (.enqueue hpc)
  next queue fused entry hpc =>
    split at hok
    next hq =>
      exact .of_eq hok (.dequeue hpc hq)
    next hq =>
      exact .of_eq hok (.wait hpc hq)
  next queue fused entry frame hpc =>
    obtain ⟨h₁, h₁ok, hok⟩ := ok_of_bind hok
    obtain ⟨hlen, hqueued, rfl⟩ := accountFor_eq_ok h₁ok
    split at hok
    next hdiscard =>
      obtain ⟨h₂, h₂ok, hok⟩ := ok_of_bind hok
      obtain ⟨-, rfl⟩ := discardOne_eq_ok h₂ok
      exact .of_eq hok (.discardLate hpc hlen hqueued hdiscard)
    next hdiscard =>
      exact .of_eq hok (.account hpc hlen hqueued (Nat.eq_zero_of_not_pos hdiscard))
  next queue fused r hpc =>
    split at hok
    next index hindex =>
      obtain ⟨_, hcheck, hok⟩ := ok_of_bind hok
      exact .of_eq hok (.readPage hpc hindex (checkPage_eq_ok.mp hcheck))
    next hend =>
      exact .of_eq hok (.yield hpc hend)

end LibLisa.Observer
