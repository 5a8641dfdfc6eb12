import LibLisa.Observer.Steps

/-!
# Positions, pages and batches of the shared memory queue

Against the counts of the history, all positions of both sides are remainders: the `i`-th request
lies in command frame `i % numCommandFrames`, and its pages follow those of the request before it in
the ring of page frames. The invariants say that the requests that are still needed fit into both
rings at any time (`Positions`, `Allocation`), and how the entries of the open batch correspond to
the requests (`Batches`). The window of `Positions` and of `Allocation` is what keeps both sides
from writing into each other's frames.
-/

namespace LibLisa.Observer

open Lib Lib.Ring List History

variable {α β : Type}

/-! ## What a place in the code stands for -/

namespace HostPc

/-- The results that were taken from the queue and not recorded as received. -/
@[simp] def dequeued : HostPc α β → ℕ
  | .discard _ | .account .. | .readPages .. => 1
  | _ => 0

/-- The results of these that have been counted. -/
@[simp] def accounted : HostPc α β → ℕ
  | .readPages .. => 1
  | _ => 0

/-- The requests that are being written. -/
@[simp] def reserved : HostPc α β → ℕ
  | .setup .. | .updateNext .. => 1
  | _ => 0

/-- The pages that are allocated for a request that is being written. -/
@[simp] def pending : HostPc α β → ℕ
  | .setup _ _ pages _ => pages.length
  | .updateNext _ s => s.pages.length
  | _ => 0

/-- The host makes room for a batch. -/
@[simp] def makesRoom : HostPc α β → Bool
  | .makeRoom | .discard _ => true
  | _ => false

/-- The frame of a result that has not been looked at. -/
@[simp] def frame : HostPc α β → Option ℕ
  | .discard f | .account _ _ _ f => some f
  | _ => none

/-- The entries of the open batch that wait for a result. -/
@[simp] def entries : HostPc α β → Option (List (Request α β))
  | .idle | .makeRoom | .discard _ => none
  | .ready queue _ | .fill queue _ | .setup queue .. | .updateNext queue _ => some queue
  | .receive queue _ entry | .account queue _ entry _ => some (entry :: queue)
  | .readPages queue _ r => some (r.entry :: queue)

end HostPc

/-- The requests that the client has taken and not published. -/
@[simp] def ClientPc.taken : ClientPc α β → ℕ
  | .idle => 0
  | _ => 1

/-- The history after a step. -/
def History.after (H : History α β) : Option (Event α β) → History α β
  | none => H
  | some e => H.record e

lemma History.ofEvents_append (e : Option (Event α β)) (events : List (Event α β)) :
    ofEvents (e.toList ++ events) = (ofEvents events).after e := by
  cases e <;> rfl

section invariants

variable {l : Layout} {m m' : Shared α β} {h h' : Host α β} {c : Client α β} {H : History α β}
  {e : Option (Event α β)} {s : Submission α β}

/-! ## Positions -/

/-- Every position is a remainder of a count, and the requests that have not been received fit into
the ring of command frames with one frame left. -/
structure Positions (l : Layout) (m : Shared α β) (h : Host α β) (c : Client α β)
    (H : History α β) : Prop where
  next_eq : m.next = H.submissions.length % l.numCommandFrames
  nextCommandFrame_eq : h.nextCommandFrame = H.submissions.length % l.numCommandFrames
  current_eq : m.current = H.processed.length % l.numCommandFrames
  host_at : h.queue.At l (H.received + h.pc.dequeued) H.processed.length
  client_at : c.queue.At l (H.processed.length + c.pc.taken) H.submissions.length
  window : H.submissions.length + 1 + h.pc.reserved ≤ H.received + l.numCommandFrames
  numQueued_eq : h.numQueued + H.received + h.pc.accounted = H.submissions.length
  frame_eq : ∀ f, h.pc.frame = some f → f = H.received % l.numCommandFrames

namespace Positions

lemma received_le (P : Positions l m h c H) :
    H.received + h.pc.dequeued ≤ H.processed.length := P.host_at.le

lemma processed_le (P : Positions l m h c H) :
    H.processed.length + c.pc.taken ≤ H.submissions.length := P.client_at.le

lemma init (commandFrames : ℕ → CommandFrame α) (pageFrames : ℕ → β) :
    Positions l (World.init commandFrames pageFrames).shared
      (World.init commandFrames pageFrames).host (World.init commandFrames pageFrames).client
      (.ofEvents []) := by
  have hat : Queue.new.At l 0 0 := ⟨(Nat.zero_mod _).symm, 0, le_refl 0, le_refl 0,
    (Nat.zero_mod _).symm⟩
  have htwo := l.two_le_commandFrames
  refine ⟨(Nat.zero_mod _).symm, (Nat.zero_mod _).symm, (Nat.zero_mod _).symm, hat, hat, ?_, rfl,
    fun f hf => nomatch hf⟩
  show 0 + 1 + 0 ≤ 0 + l.numCommandFrames
  omega

/-- What the host finds when it looks for a result. -/
lemma tryDequeue (P : Positions l m h c H) (hd : h.pc.dequeued = 0) :
    (∃ q, h.queue.tryDequeue l m.current = (none, q) ∧ q.At l H.received H.processed.length) ∨
      ∃ q, h.queue.tryDequeue l m.current = (some (H.received % l.numCommandFrames), q) ∧
        q.At l (H.received + 1) H.processed.length := by
  have hat := P.host_at
  have hprocessed := P.processed_le
  have hwindow := P.window
  rw [hd] at hat
  rw [P.current_eq]
  rcases hat.tryDequeue (by omega) with ⟨q, hq, hat', -⟩ | ⟨q, hq, hat'⟩
  · exact Or.inl ⟨q, hq, hat'⟩
  · exact Or.inr ⟨q, hq, hat'⟩

lemma numQueued_lt_of_not_full (hroom : h.queueFull l = false) :
    h.numQueued + 1 < l.numCommandFrames ∧
      h.pageFramesAllocated + maxMappings < l.numPageFrames := by
  unfold Host.queueFull Host.maxLen at hroom
  rw [Bool.or_eq_false_iff, decide_eq_false_iff_not, decide_eq_false_iff_not] at hroom
  omega

section

variable (P : Positions l m h c H)
include P

/-- A result is received without being read. -/
lemma received_step (hd : h.pc.dequeued = 1) (ha : h.pc.accounted = 0)
    (hr : h.pc.reserved = 0) (hq : 0 < h.numQueued) {allocated toDiscard : ℕ} {pc : HostPc α β}
    (hpc : pc = .makeRoom ∨ (∃ queue fused, pc = .ready queue fused) ∨
      ∃ queue fused entry, pc = .receive queue fused entry) :
    Positions l m { h with
      pageFramesAllocated := allocated, numQueued := h.numQueued - 1, numToDiscard := toDiscard, pc }
      c (H.record .discarded) := by
  have hat := P.host_at
  have hwindow := P.window
  have hqueued := P.numQueued_eq
  rw [hd] at hat
  have hviews : pc.dequeued = 0 ∧ pc.reserved = 0 ∧ pc.accounted = 0 ∧ pc.frame = none := by
    rcases hpc with rfl | ⟨_, _, rfl⟩ | ⟨_, _, _, rfl⟩ <;> exact ⟨rfl, rfl, rfl, rfl⟩
  obtain ⟨hd', hr', ha', hf'⟩ := hviews
  refine { P with host_at := ?_, window := ?_, numQueued_eq := ?_, frame_eq := ?_ }
  · rw [hd']
    exact hat
  · rw [hr']
    show H.submissions.length + 1 + 0 ≤ H.received + 1 + l.numCommandFrames
    omega
  · rw [ha']
    show h.numQueued - 1 + (H.received + 1) + 0 = H.submissions.length
    omega
  · intro f hf
    rw [hf'] at hf
    cases hf

lemma host_step (hstep : HostStep l m h m' h' e) : Positions l m' h' c (H.after e) := by
  obtain ⟨queue, nextCommandFrame, numQueued, allocated, nextPageFrame, numToDiscard, pc⟩ := h
  have hwindow := P.window
  have hqueued := P.numQueued_eq
  cases hstep with
  | start hpc =>
    cases hpc
    split <;> exact { P with frame_eq := nofun }
  | @roomMade q hpc hq pc hnext =>
    cases hpc
    have hat' : q.At l H.received H.processed.length := by
      rcases P.tryDequeue rfl with ⟨q', hq', hat'⟩ | ⟨q', hq', -⟩
      · obtain rfl := (Prod.mk.inj (hq'.symm.trans hq)).2
        exact hat'
      · nomatch hq'.symm.trans hq
    rcases hnext with rfl | ⟨-, rfl⟩ <;> exact { P with host_at := hat', frame_eq := nofun }
  | @dequeueStale q frame hpc hq | @dequeue _ _ _ q frame hpc hq =>
    cases hpc
    rcases P.tryDequeue rfl with ⟨q', hq', -⟩ | ⟨q', hq', hat'⟩
    · nomatch hq'.symm.trans hq
    · obtain ⟨hframe, rfl⟩ := Prod.mk.inj (hq'.symm.trans hq)
      refine { P with host_at := hat', frame_eq := ?_ }
      rintro f ⟨rfl⟩
      exact (Option.some.inj hframe).symm
  | discard hpc hlen hq hdiscard =>
    cases hpc
    refine P.received_step rfl rfl rfl hq ?_
    split
    · exact Or.inr (Or.inl ⟨_, _, rfl⟩)
    · exact Or.inl rfl
  | drop hpc | next hpc | allocate hpc hsetup hroom hindex hi | writeFrame hpc hsetup hlen hdata
  | readPage hpc hindex hpage =>
    cases hpc
    exact { P with frame_eq := nofun }
  | @filled queue _ hpc fused' =>
    cases hpc
    rcases queue with _ | ⟨entry, queue⟩ <;> exact { P with frame_eq := nofun }
  | take hpc hroom request =>
    cases hpc
    have hroom' := numQueued_lt_of_not_full hroom
    dsimp at hqueued hroom'
    refine { P with window := ?_, frame_eq := nofun }
    show H.submissions.length + 1 + 1 ≤ H.received + l.numCommandFrames
    omega
  | @enqueue queue s hpc =>
    cases hpc
    have hlength : (H.submissions ++ [s]).length = H.submissions.length + 1 := by simp
    have hnext : (nextCommandFrame + 1) % l.numCommandFrames =
        (H.submissions ++ [s]).length % l.numCommandFrames := by
      rw [show nextCommandFrame = _ from P.nextCommandFrame_eq, Nat.mod_add_mod, hlength]
    refine ⟨hnext, hnext, P.current_eq, P.host_at, P.client_at.mono ?_, ?_, ?_, nofun⟩
    · exact hlength ▸ Nat.le_succ _
    · show (H.submissions ++ [s]).length + 1 + 0 ≤ H.received + l.numCommandFrames
      exact hlength ▸ hwindow
    · show numQueued + 1 + H.received + 0 = (H.submissions ++ [s]).length
      dsimp at hqueued
      omega
  | @wait _ _ _ q hpc hq =>
    cases hpc
    rcases P.tryDequeue rfl with ⟨q', hq', hat'⟩ | ⟨q', hq', -⟩
    · obtain rfl := (Prod.mk.inj (hq'.symm.trans hq)).2
      exact { P with host_at := hat' }
    · nomatch hq'.symm.trans hq
  | discardLate hpc hlen hq hdiscard =>
    cases hpc
    exact P.received_step rfl rfl rfl hq (Or.inr (Or.inr ⟨_, _, _, rfl⟩))
  | account hpc hlen hq hdiscard =>
    cases hpc
    refine { P with numQueued_eq := ?_, frame_eq := nofun }
    show numQueued - 1 + H.received + 1 = H.submissions.length
    dsimp at hq hqueued
    omega
  | yield hpc hend =>
    cases hpc
    dsimp at hqueued hwindow
    refine { P with window := ?_, numQueued_eq := ?_, frame_eq := nofun }
    · show H.submissions.length + 1 + 0 ≤ H.received + 1 + l.numCommandFrames
      omega
    · show numQueued + (H.received + 1) + 0 = H.submissions.length
      omega

/-- The client changes nothing of the queue until it publishes. -/
lemma client_working (hbusy : c.pc.taken = 1) {pc : ClientPc α β}
    (hpc : pc.taken = 1) {commandFrames : ℕ → CommandFrame α} {pageFrames : ℕ → β} :
    Positions l { m with commandFrames, pageFrames } h { c with pc } H := by
  have hat := P.client_at
  rw [hbusy] at hat
  refine { P with client_at := ?_ }
  rw [hpc]
  exact hat

lemma client_publish (hbusy : c.pc.taken = 1) (frame : ℕ) (pages : List ℕ) :
    Positions l { m with current := c.queue.readIndex } h { c with pc := .idle }
      (H.record (.processed frame pages)) := by
  have hat := P.client_at
  rw [hbusy] at hat
  have hlength : (H.processed ++ [(frame, pages)]).length = H.processed.length + 1 := by simp
  refine { P with current_eq := ?_, host_at := P.host_at.mono ?_, client_at := ?_ }
  · show c.queue.readIndex = (H.processed ++ [(frame, pages)]).length % l.numCommandFrames
    rw [hlength]
    exact hat.readIndex_eq
  · exact hlength ▸ Nat.le_succ _
  · show c.queue.At l ((H.processed ++ [(frame, pages)]).length + 0) H.submissions.length
    rw [hlength]
    exact hat

end

end Positions

/-! ## Pages -/

/-- The page frame of a position. -/
def Layout.pageIndex (l : Layout) (a : ℕ) : ℕ := l.minIndex + a % l.numPageFrames

lemma Layout.pageIndex_lt (l : Layout) (a : ℕ) :
    l.minIndex ≤ l.pageIndex a ∧ l.pageIndex a < l.minIndex + l.numPageFrames := by
  have hpos : 0 < l.numPageFrames := (Nat.zero_le _).trans_lt l.max_lt_pageFrames
  exact ⟨Nat.le_add_right _ _, Nat.add_lt_add_left (Nat.mod_lt a hpos) _⟩

/-- The request lies where the `i`-th request belongs, with its pages from position `start` on. -/
structure Submission.Placed (l : Layout) (i start : ℕ) (s : Submission α β) : Prop where
  frame_eq : s.frame = i % l.numCommandFrames
  pages_eq : s.pages = consecutive l.pageIndex start s.pages.length
  length_contents : s.contents.length = s.pages.length

namespace History

variable {i : ℕ}

lemma pagesBefore_succ (hi : H.submissions[i]? = some s) :
    H.pagesBefore (i + 1) = H.pagesBefore i + s.pages.length := by
  rw [pagesBefore, pagesBefore, take_add_one, hi]
  simp

lemma pagesBefore_mono {j : ℕ} (hij : i ≤ j) : H.pagesBefore i ≤ H.pagesBefore j := by
  obtain ⟨d, rfl⟩ := Nat.exists_eq_add_of_le hij
  rw [pagesBefore, pagesBefore, take_add, map_append, sum_append]
  exact Nat.le_add_right _ _

lemma pagesBefore_append (s : Submission α β) (hi : i ≤ H.submissions.length) :
    (H.record (.enqueued s)).pagesBefore i = H.pagesBefore i := by
  show (((H.submissions ++ [s]).take i).map (·.pages.length)).sum = _
  rw [take_append_of_le_length hi]
  rfl

/-- The number of pages of all requests. -/
def totalPages (H : History α β) : ℕ := H.pagesBefore H.submissions.length

lemma pagesBefore_le_total (i : ℕ) : H.pagesBefore i ≤ H.totalPages := by
  rcases Nat.le_total i H.submissions.length with hi | hi
  · exact pagesBefore_mono hi
  · rw [totalPages, pagesBefore, pagesBefore, take_of_length_le hi, take_length]

lemma totalPages_append (s : Submission α β) :
    (H.record (.enqueued s)).totalPages = H.totalPages + s.pages.length := by
  show (((H.submissions ++ [s]).take (H.submissions ++ [s]).length).map (·.pages.length)).sum = _
  rw [totalPages, pagesBefore, take_length]
  simp

end History

/-- The requests lie one after the other, and the pages that are needed fit into the ring of page
frames with one page left. A request that is being written can still get all of its pages. -/
structure Allocation (l : Layout) (h : Host α β) (H : History α β) : Prop where
  placed : ∀ i (s : Submission α β), H.submissions[i]? = some s → s.Placed l i (H.pagesBefore i)
  nextPageFrame_eq : h.nextPageFrame = (H.totalPages + h.pc.pending) % l.numPageFrames
  allocated_eq : h.pageFramesAllocated + H.pagesBefore (H.received + h.pc.accounted) =
    H.totalPages + h.pc.pending
  window : H.totalPages + h.pc.pending < H.pagesBefore H.received + l.numPageFrames
  setup : ∀ queue request pages contents, h.pc = .setup queue request pages contents →
    H.totalPages + maxMappings < H.pagesBefore H.received + l.numPageFrames ∧
      pages = consecutive l.pageIndex H.totalPages pages.length ∧
      contents.length = pages.length ∧ pages.length ≤ request.setupPages.length
  updateNext : ∀ queue (s : Submission α β), h.pc = .updateNext queue s →
    s.Placed l H.submissions.length H.totalPages

namespace Allocation

lemma init (commandFrames : ℕ → CommandFrame α) (pageFrames : ℕ → β) :
    Allocation l (World.init commandFrames pageFrames).host (.ofEvents []) := by
  have hmax := l.max_lt_pageFrames
  refine ⟨fun i s hi => (nomatch hi), (Nat.zero_mod _).symm, rfl, ?_, nofun, nofun⟩
  show 0 + 0 < 0 + l.numPageFrames
  omega

section

variable (A : Allocation l h H)
include A

/-- The pages of the oldest request are released. -/
lemma release (hpending : h.pc.pending = 0) (ha : h.pc.accounted = 0)
    (hs : H.submissions[H.received]? = some s) :
    h.pageFramesAllocated - s.pages.length + H.pagesBefore (H.received + 1) = H.totalPages := by
  have hallocated := A.allocated_eq
  have hle : H.pagesBefore (H.received + 1) ≤ H.totalPages := pagesBefore_le_total _
  rw [ha, hpending] at hallocated
  rw [pagesBefore_succ hs] at hle ⊢
  have hallocated' : h.pageFramesAllocated + H.pagesBefore H.received = H.totalPages := hallocated
  omega

/-- A result is received without being read. -/
lemma received_step (hpending : h.pc.pending = 0) (ha : h.pc.accounted = 0)
    (hs : H.submissions[H.received]? = some s) (hpage : h'.nextPageFrame = h.nextPageFrame)
    (hallocated : h'.pageFramesAllocated = h.pageFramesAllocated - s.pages.length)
    (hpending' : h'.pc.pending = 0) (ha' : h'.pc.accounted = 0) (hreserved : h'.pc.reserved = 0) :
    Allocation l h' (H.record .discarded) := by
  have hrelease := A.release hpending ha hs
  have hwindow := A.window
  refine ⟨A.placed, ?_, ?_, ?_, ?_, ?_⟩
  · rw [hpage, hpending', ← hpending]
    exact A.nextPageFrame_eq
  · rw [hallocated, hpending', ha']
    exact hrelease
  · rw [hpending']
    have hmono : H.pagesBefore H.received ≤ H.pagesBefore (H.received + 1) :=
      pagesBefore_mono (Nat.le_succ _)
    show H.totalPages + 0 < H.pagesBefore (H.received + 1) + l.numPageFrames
    omega
  · intro queue request pages contents hpc
    rw [hpc] at hreserved
    cases hreserved
  · intro queue s hpc
    rw [hpc] at hreserved
    cases hreserved

variable {queue : List (Request α β)}

lemma pageIndex_eq : h.nextPageFrame + l.minIndex = l.pageIndex (H.totalPages + h.pc.pending) := by
  rw [A.nextPageFrame_eq, Nat.add_comm]
  rfl

/-- A page is allocated. -/
lemma allocate {request : Request α β} {pages : List ℕ} {contents : List β}
    (hpc : h.pc = .setup queue request pages contents)
    (hlt : contents.length < request.setupPages.length) (content : β) :
    Allocation l { h with
      nextPageFrame := (h.nextPageFrame + 1) % l.numPageFrames
      pageFramesAllocated := h.pageFramesAllocated + 1
      pc := .setup queue request (pages ++ [(h.nextPageFrame + l.minIndex) % 2 ^ 16])
        (contents ++ [content]) } H := by
  obtain ⟨hroom, hpages, hlength, hle⟩ := A.setup _ _ _ _ hpc
  have hindex := A.pageIndex_eq
  have hpage := A.nextPageFrame_eq
  have hallocated := A.allocated_eq
  rw [hpc] at hindex hpage hallocated
  have hallocated' : h.pageFramesAllocated + H.pagesBefore H.received =
      H.totalPages + pages.length := hallocated
  have hmax := request.length_le
  have hlength' : (pages ++ [(h.nextPageFrame + l.minIndex) % 2 ^ 16]).length =
      pages.length + 1 := by simp
  have hfits : (h.nextPageFrame + l.minIndex) % 2 ^ 16 = l.pageIndex (H.totalPages + pages.length) := by
    rw [hindex, Nat.mod_eq_of_lt]
    · rfl
    · exact (l.pageIndex_lt _).2.trans_le l.pages_le
  refine ⟨A.placed, ?_, ?_, ?_, ?_, nofun⟩
  · show _ = (H.totalPages + (pages ++ [(h.nextPageFrame + l.minIndex) % 2 ^ 16]).length) % _
    rw [hlength', hpage, Nat.mod_add_mod]
    rfl
  · show h.pageFramesAllocated + 1 + H.pagesBefore H.received =
      H.totalPages + (pages ++ [(h.nextPageFrame + l.minIndex) % 2 ^ 16]).length
    omega
  · show H.totalPages + (pages ++ [(h.nextPageFrame + l.minIndex) % 2 ^ 16]).length < _
    omega
  · rintro _ _ _ _ ⟨⟩
    refine ⟨hroom, ?_, by simpa using hlength, by omega⟩
    rw [hlength', consecutive_succ, ← hpages, hfits]

/-- The request is published. -/
lemma enqueue (hreceived : H.received ≤ H.submissions.length)
    (hpc : h.pc = .updateNext queue s) (hpage : h'.nextPageFrame = h.nextPageFrame)
    (hallocated : h'.pageFramesAllocated = h.pageFramesAllocated)
    (hpc' : ∃ queue fused, h'.pc = .fill queue fused) :
    Allocation l h' (H.record (.enqueued s)) := by
  have hplaced := A.updateNext _ _ hpc
  have hpage₀ := A.nextPageFrame_eq
  have hallocated₀ := A.allocated_eq
  have hwindow := A.window
  have htotal := totalPages_append (H := H) s
  have hbefore := pagesBefore_append s hreceived
  obtain ⟨queue', fused, hpc'⟩ := hpc'
  rw [hpc] at hpage₀ hallocated₀ hwindow
  obtain ⟨_, _, _, _, _, _, _⟩ := h'
  cases hpc'
  refine ⟨?_, ?_, ?_, ?_, nofun, nofun⟩
  · intro i t hi
    have hi' : (H.submissions ++ [s])[i]? = some t := hi
    rcases Nat.lt_trichotomy i H.submissions.length with hlt | rfl | hgt
    · rw [getElem?_append_left hlt] at hi'
      rw [pagesBefore_append s hlt.le]
      exact A.placed i t hi'
    · obtain rfl : s = t := by simpa using hi'
      rw [pagesBefore_append s (le_refl _)]
      exact hplaced
    · rw [getElem?_eq_none (by simp; omega)] at hi'
      cases hi'
  · rw [hpage, hpage₀, htotal]
    rfl
  · rw [hallocated]
    show h.pageFramesAllocated + (H.record (.enqueued s)).pagesBefore H.received =
      (H.record (.enqueued s)).totalPages + 0
    rw [htotal, hbefore]
    exact hallocated₀
  · show (H.record (.enqueued s)).totalPages + 0 <
      (H.record (.enqueued s)).pagesBefore H.received + l.numPageFrames
    rw [htotal, hbefore]
    exact hwindow

lemma host_step (P : Positions l m h c H) (hmapped : ∀ f, h.pc.frame = some f →
      ∃ s, H.submissions[H.received]? = some s ∧ (m.commandFrames f).mappings = s.pages)
    (hstep : HostStep l m h m' h' e) : Allocation l h' (H.after e) := by
  have hreceived : H.received ≤ H.submissions.length := by
    have h₁ := P.received_le
    have h₂ := P.processed_le
    omega
  obtain ⟨queue, nextCommandFrame, numQueued, allocated, nextPageFrame, numToDiscard, pc⟩ := h
  cases hstep with
  | start hpc =>
    cases hpc
    split <;> exact { A with setup := nofun, updateNext := nofun }
  | roomMade hpc hq hnext =>
    cases hpc
    rcases hnext with rfl | ⟨-, rfl⟩ <;> exact { A with setup := nofun, updateNext := nofun }
  | dequeueStale hpc hq | drop hpc | next hpc | wait hpc hq | dequeue hpc hq
  | readPage hpc hindex hpage =>
    cases hpc
    exact { A with setup := nofun, updateNext := nofun }
  | discard hpc hlen hq hdiscard =>
    cases hpc
    obtain ⟨s, hs, hmap⟩ := hmapped _ rfl
    rw [hmap]
    refine A.received_step rfl rfl hs rfl rfl ?_ ?_ ?_ <;> dsimp only <;> split <;> rfl
  | @filled queue _ hpc fused' =>
    cases hpc
    rcases queue with _ | ⟨entry, queue⟩ <;> exact { A with setup := nofun, updateNext := nofun }
  | take hpc hroom request =>
    cases hpc
    -- the first page is within the limit of `queue_full`, and so are the other ones
    have hroom' := (Positions.numQueued_lt_of_not_full hroom).2
    have hallocated := A.allocated_eq
    refine { A with setup := ?_, updateNext := nofun }
    rintro _ _ _ _ ⟨⟩
    dsimp at hroom' hallocated
    exact ⟨show H.totalPages + maxMappings < H.pagesBefore H.received + l.numPageFrames by omega,
      rfl, rfl, Nat.zero_le _⟩
  | allocate hpc hsetup hroom hindex hi =>
    obtain rfl := hi
    exact A.allocate hpc (lt_of_getElem? hsetup) _
  | writeFrame hpc hsetup hlen hdata =>
    cases hpc
    obtain ⟨-, hpages, hlength, -⟩ := A.setup _ _ _ _ rfl
    refine { A with setup := nofun, updateNext := ?_ }
    rintro _ _ ⟨⟩
    exact ⟨P.nextCommandFrame_eq, hpages, hlength⟩
  | enqueue hpc => exact A.enqueue hreceived hpc rfl rfl ⟨_, _, rfl⟩
  | discardLate hpc hlen hq hdiscard =>
    cases hpc
    obtain ⟨s, hs, hmap⟩ := hmapped _ rfl
    rw [hmap]
    exact A.received_step rfl rfl hs rfl rfl rfl rfl rfl
  | account hpc hlen hq hdiscard =>
    cases hpc
    obtain ⟨s, hs, hmap⟩ := hmapped _ rfl
    rw [hmap]
    exact { A with allocated_eq := A.release rfl rfl hs, setup := nofun, updateNext := nofun }
  | yield hpc hend =>
    cases hpc
    refine { A with window := A.window.trans_le ?_, setup := nofun, updateNext := nofun }
    exact Nat.add_le_add_right (pagesBefore_mono (Nat.le_succ _)) _

end

end Allocation

/-! ## Batches -/

/-- The entries of the open batch are its requests without the results that were yielded, and what
has to be discarded is what was enqueued before the batch. -/
structure Batches (h : Host α β) (H : History α β) : Prop where
  start_le : H.batchStart ≤ H.submissions.length
  received_le : H.received ≤ H.submissions.length
  idle : h.pc = .idle → h.numToDiscard + H.received = H.submissions.length
  discard_eq : h.pc ≠ .idle → h.numToDiscard = H.batchStart - H.received
  yields_eq : h.pc ≠ .idle → H.yields = H.received - H.batchStart
  makeRoom : h.pc.makesRoom = true →
    H.batchStart = H.submissions.length ∧ H.received < H.submissions.length
  entries : ∀ es, h.pc.entries = some es →
    es = (H.submissions.drop (max H.received H.batchStart)).map (·.request)
  reading : ∀ queue fused r, h.pc = .readPages queue fused r → H.batchStart ≤ H.received

namespace Batches

lemma init (commandFrames : ℕ → CommandFrame α) (pageFrames : ℕ → β) :
    Batches (World.init commandFrames pageFrames).host (.ofEvents []) :=
  ⟨le_refl 0, le_refl 0, fun _ => rfl, fun hne => absurd rfl hne, fun hne => absurd rfl hne,
    nofun, nofun, nofun⟩

section

variable (B : Batches h H) {queue : List (Request α β)} {fused : Bool}
include B

/-- Moving on within a batch. -/
lemma move (hopen : h.pc ≠ .idle) (hopen' : h'.pc ≠ .idle)
    (hdiscard : h'.numToDiscard = h.numToDiscard) (hentries : h'.pc.entries = h.pc.entries)
    (hroom : h'.pc.makesRoom = true → h.pc.makesRoom = true)
    (hreading : ∀ queue fused r, h'.pc = .readPages queue fused r → H.batchStart ≤ H.received) :
    Batches h' H := by
  refine ⟨B.start_le, B.received_le, fun hidle => absurd hidle hopen', fun _ => ?_,
    fun _ => B.yields_eq hopen, fun h => B.makeRoom (hroom h), fun es hes => ?_, hreading⟩
  · rw [hdiscard]
    exact B.discard_eq hopen
  · rw [hentries] at hes
    exact B.entries es hes

/-- Where a batch waits for requests, without making room. -/
lemma ready (hopen : h.pc ≠ .idle) (hpc : h'.pc = .ready [] fused)
    (hdiscard : h'.numToDiscard = h.numToDiscard) (hstart : H.batchStart = H.submissions.length) :
    Batches h' H := by
  obtain ⟨_, _, _, _, _, _, _⟩ := h'
  cases hpc
  refine ⟨B.start_le, B.received_le, nofun, fun _ => hdiscard.trans (B.discard_eq hopen),
    fun _ => B.yields_eq hopen, nofun, ?_, nofun⟩
  rintro es ⟨rfl⟩
  rw [hstart, drop_eq_nil_of_le (le_max_right _ _)]
  rfl

lemma start (hpc : h.pc = .idle) :
    Batches { h with pc := if h.numToDiscard > 0 then .makeRoom else .ready [] false }
      (H.record .batch) := by
  have hidle := B.idle hpc
  have hle := B.received_le
  have hdiscard : h.numToDiscard = H.submissions.length - H.received := by omega
  have hyields : 0 = H.received - H.submissions.length := by omega
  by_cases hpos : h.numToDiscard > 0
  · rw [if_pos hpos]
    exact ⟨le_refl _, hle, nofun, fun _ => hdiscard, fun _ => hyields,
      fun _ => ⟨rfl, show H.received < H.submissions.length by omega⟩, nofun, nofun⟩
  · rw [if_neg hpos]
    refine ⟨le_refl _, hle, nofun, fun _ => hdiscard, fun _ => hyields, ?_, ?_, nofun⟩
    · exact nofun
    · rintro es ⟨rfl⟩
      show [] = (H.submissions.drop (max H.received H.submissions.length)).map _
      rw [drop_eq_nil_of_le (le_max_right _ _)]
      rfl

/-- A result from before the batch is discarded. -/
lemma discarded (hopen : h.pc ≠ .idle) (hdiscard : 0 < h.numToDiscard)
    (hopen' : h'.pc ≠ .idle) (hdiscard' : h'.numToDiscard = h.numToDiscard - 1)
    (hroom : h'.pc.makesRoom = true →
      H.batchStart = H.submissions.length ∧ H.received + 1 < H.submissions.length)
    (hentries : ∀ es, h'.pc.entries = some es →
      es = (H.submissions.drop (max H.received H.batchStart)).map (·.request))
    (hreading : ∀ queue fused r, h'.pc ≠ .readPages queue fused r) :
    Batches h' (H.record .discarded) := by
  have hstart := B.start_le
  have hd := B.discard_eq hopen
  have hy := B.yields_eq hopen
  have hmax : max (H.received + 1) H.batchStart = max H.received H.batchStart := by omega
  refine ⟨hstart, ?_, fun hidle => absurd hidle hopen', fun _ => ?_, fun _ => ?_, hroom,
    fun es hes => ?_, fun queue fused r hpc => absurd hpc (hreading queue fused r)⟩
  · show H.received + 1 ≤ H.submissions.length
    omega
  · show h'.numToDiscard = H.batchStart - (H.received + 1)
    omega
  · show H.yields = H.received + 1 - H.batchStart
    omega
  · show es = (H.submissions.drop (max (H.received + 1) H.batchStart)).map (·.request)
    rw [hmax]
    exact hentries es hes

lemma enqueue (hpc : h.pc = .updateNext queue s) (hdiscard : h'.numToDiscard = h.numToDiscard)
    (hpc' : h'.pc = .fill (queue ++ [s.request]) false) : Batches h' (H.record (.enqueued s)) := by
  have hstart := B.start_le
  have hreceived := B.received_le
  have hopen : h.pc ≠ .idle := by rw [hpc]; exact nofun
  have hlength : (H.submissions ++ [s]).length = H.submissions.length + 1 := by simp
  obtain ⟨_, _, _, _, _, _, _⟩ := h'
  cases hpc'
  refine ⟨?_, ?_, nofun, fun _ => hdiscard.trans (B.discard_eq hopen),
    fun _ => B.yields_eq hopen, nofun, ?_, nofun⟩
  · show H.batchStart ≤ (H.submissions ++ [s]).length
    omega
  · show H.received ≤ (H.submissions ++ [s]).length
    omega
  · rintro es ⟨rfl⟩
    show queue ++ [s.request] =
      ((H.submissions ++ [s]).drop (max H.received H.batchStart)).map (·.request)
    rw [drop_append_of_le_length (max_le hreceived hstart), map_append,
      ← B.entries queue (by rw [hpc]; rfl)]
    rfl

lemma yielded {r : Reading α β} (hpc : h.pc = .readPages queue fused r) :
    Batches { h with pc := .ready queue fused } (H.record (.yielded r)) := by
  have hopen : h.pc ≠ .idle := by rw [hpc]; exact nofun
  have hread := B.reading _ _ _ hpc
  have hd := B.discard_eq hopen
  have hy := B.yields_eq hopen
  have hentries := B.entries _ (show h.pc.entries = some (r.entry :: queue) by rw [hpc]; rfl)
  rw [max_eq_left hread] at hentries
  have hlt : H.received < H.submissions.length := by
    have hlength := congrArg List.length hentries
    rw [length_map, length_drop, length_cons] at hlength
    omega
  refine ⟨B.start_le, hlt, nofun, fun _ => ?_, fun _ => ?_, ?_, ?_, nofun⟩
  · show h.numToDiscard = H.batchStart - (H.received + 1)
    omega
  · show H.yields + 1 = H.received + 1 - H.batchStart
    omega
  · exact nofun
  · rintro es ⟨rfl⟩
    show queue = (H.submissions.drop (max (H.received + 1) H.batchStart)).map (·.request)
    rw [max_eq_left (by omega), ← drop_drop, map_drop, ← hentries]
    rfl

lemma host_step (P : Positions l m h c H) (hstep : HostStep l m h m' h' e) :
    Batches h' (H.after e) := by
  obtain ⟨queue, nextCommandFrame, numQueued, allocated, nextPageFrame, numToDiscard, pc⟩ := h
  cases hstep with
  | start hpc => exact B.start hpc
  | roomMade hpc hq hnext =>
    cases hpc
    rcases hnext with rfl | ⟨-, rfl⟩
    · exact B.move nofun nofun rfl rfl id nofun
    · exact B.ready nofun rfl rfl (B.makeRoom rfl).1
  | dequeueStale hpc hq =>
    cases hpc
    exact B.move nofun nofun rfl rfl id nofun
  | discard hpc hlen hq hdiscard =>
    cases hpc
    obtain ⟨hstart, hlt⟩ := B.makeRoom rfl
    have hd := B.discard_eq nofun
    split
    next hzero =>
      refine B.discarded nofun hdiscard nofun rfl nofun ?_ nofun
      rintro es ⟨rfl⟩
      rw [hstart, drop_eq_nil_of_le (le_max_right _ _)]
      rfl
    next hzero =>
      dsimp at hzero hd
      exact B.discarded nofun hdiscard nofun rfl (fun _ => ⟨hstart, by omega⟩) nofun nofun
  | drop hpc =>
    cases hpc
    exact ⟨B.start_le, B.received_le, fun _ => P.numQueued_eq, fun hne => absurd rfl hne,
      fun hne => absurd rfl hne, nofun, nofun, nofun⟩
  | next hpc | take hpc hroom request | allocate hpc hsetup hroom hindex hi
  | writeFrame hpc hsetup hlen hdata | wait hpc hq | dequeue hpc hq =>
    cases hpc
    exact B.move nofun nofun rfl rfl nofun nofun
  | @filled queue _ hpc fused' =>
    cases hpc
    rcases queue with _ | ⟨entry, queue⟩ <;> exact B.move nofun nofun rfl rfl nofun nofun
  | enqueue hpc => exact B.enqueue hpc rfl rfl
  | discardLate hpc hlen hq hdiscard =>
    cases hpc
    refine B.discarded nofun hdiscard nofun rfl nofun ?_ nofun
    rintro es ⟨rfl⟩
    exact B.entries _ rfl
  | account hpc hlen hq hdiscard =>
    cases hpc
    have hd := B.discard_eq nofun
    refine B.move nofun nofun rfl rfl nofun fun _ _ _ _ => ?_
    dsimp at hd hdiscard
    omega
  | readPage hpc hindex hpage =>
    cases hpc
    exact B.move nofun nofun rfl rfl nofun fun _ _ _ _ => B.reading _ _ _ rfl
  | yield hpc hend => exact B.yielded hpc

end

end Batches

end invariants

end LibLisa.Observer
