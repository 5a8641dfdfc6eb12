import LibLisa.Panic
import LibLisa.Lib.Ring

/-!
# The shared memory queue between the host and the observer

The host writes requests into a ring of command frames and their memory into a ring of page frames;
the client in the virtual machine executes them in place. Two counters in shared memory say how far
each side is: `next`, written by the host, and `current`, written by the client.

Host and client are state machines that take steps in any order. A step accesses at most one
counter or one frame of the shared memory; what lies between two such accesses is private to its
side and part of the step. What the caller decides (whether a batch is continued or dropped, what
the iterator of the requests returns) is an input of the host's step.

The contents of frames are abstract: `α` is a command frame without its memory mappings, `β` a page.

Where no file is given, the source is `vm.rs`.
-/

namespace LibLisa.Observer

/-! ## Layout -/

/-- Source: `frame/command.rs`, `MemoryMappings::MAX_LEN` -/
def maxMappings : ℕ := 64

/-- The frames of one queue. Page frames have the indices from `minIndex` on, which are stored as
`u16`. -/
structure Layout where
  numCommandFrames : ℕ
  numPageFrames : ℕ
  minIndex : ℕ
  two_le_commandFrames : 2 ≤ numCommandFrames
  max_lt_pageFrames : maxMappings < numPageFrames
  pages_le : minIndex + numPageFrames ≤ 2 ^ 16

namespace Layout

/-- Source: `SHMEM_SIZE`, in frames -/
def shmemFrames : ℕ := 1024

/-- The frames of one of `num` queues. -/
def framesPerQueue (num : ℕ) : ℕ := (shmemFrames - num) / num

/-- Source: `VmOptions::start`, `command_frames_per_queue` -/
def commandFramesPerQueue (num : ℕ) : ℕ := framesPerQueue num / 4

/-- Source: `VmOptions::start`, `page_frames_per_queue` -/
def pageFramesPerQueue (num : ℕ) : ℕ := framesPerQueue num - commandFramesPerQueue num

lemma pages_le_of_start {num index : ℕ} (h : index < num) :
    pageFramesPerQueue num * index + pageFramesPerQueue num ≤ 2 ^ 16 := by
  have hframes : framesPerQueue num * num ≤ shmemFrames :=
    (Nat.div_mul_le_self _ _).trans (Nat.sub_le _ _)
  have hpages : pageFramesPerQueue num ≤ framesPerQueue num := Nat.sub_le _ _
  calc pageFramesPerQueue num * index + pageFramesPerQueue num
    _ ≤ framesPerQueue num * num := Nat.mul_le_mul hpages h
    _ ≤ 2 ^ 16 := hframes.trans (by decide)

/-- Source: `VmOptions::start` and `Vm::observers`: the layout of queue `index` of `num` -/
def start (num index : ℕ) (h : index < num) (hcommand : 2 ≤ commandFramesPerQueue num)
    (hpage : maxMappings < pageFramesPerQueue num) : Layout where
  numCommandFrames := commandFramesPerQueue num
  numPageFrames := pageFramesPerQueue num
  minIndex := pageFramesPerQueue num * index
  two_le_commandFrames := hcommand
  max_lt_pageFrames := hpage
  pages_le := pages_le_of_start h

end Layout

/-! ## Shared memory -/

section memory

variable (α β : Type)

/-- A command frame: the page frames it maps, and everything else. -/
structure CommandFrame where
  mappings : List ℕ
  data : α

/-- The shared memory of one queue. -/
structure Shared where
  /-- The next empty command frame; only the host writes it. -/
  next : ℕ
  /-- The command frame that the client processes next; only the client writes it. -/
  current : ℕ
  commandFrames : ℕ → CommandFrame α
  pageFrames : ℕ → β

end memory

variable {α β : Type}

/-! ## Queue positions -/

/-- Source: `queue.rs`, `Queue`: the private positions of one side -/
structure Queue where
  readIndex : ℕ
  cachedCurrentPos : ℕ
deriving DecidableEq, Repr

namespace Queue

/-- Source: `queue.rs`, `Queue::new` -/
def new : Queue := ⟨0, 0⟩

/-- Source: `queue.rs`, `Queue::request_available`; `currentPos` is the counter in shared memory -/
def requestAvailable (l : Layout) (currentPos : ℕ) (q : Queue) : Bool × Queue :=
  if q.readIndex ≠ q.cachedCurrentPos then (true, q)
  else
    let q := { q with cachedCurrentPos := currentPos % l.numCommandFrames }
    (q.readIndex ≠ q.cachedCurrentPos, q)

/-- Source: `queue.rs`, `Queue::try_dequeue`: the index of the frame -/
def tryDequeue (l : Layout) (currentPos : ℕ) (q : Queue) : Option ℕ × Queue :=
  let (available, q) := q.requestAvailable l currentPos
  if available then
    (some q.readIndex, { q with readIndex := (q.readIndex + 1) % l.numCommandFrames })
  else (none, q)

end Queue

/-! ## Requests and what is seen of a run -/

/-- An observation request: how it sets up its command frame and each of its pages, from what was
there before. It maps the pages it allocates. -/
structure Request (α β : Type) where
  setupFrame : α → α
  setupPages : List (β → β)
  length_le : setupPages.length ≤ maxMappings

/-- What the client leaves in a command frame and in the pages it maps. -/
structure Observation (α β : Type) where
  frame : α → List β → α
  page : α → List β → ℕ → β

/-- A request as it was enqueued: where it was written, and what was written. -/
structure Submission (α β : Type) where
  request : Request α β
  frame : ℕ
  pages : List ℕ
  data : α
  contents : List β

/-- What a batch yields for an entry: where it was read, and what was read. -/
structure Reading (α β : Type) where
  entry : Request α β
  frame : ℕ
  pages : List ℕ
  data : α
  contents : List β

/-- What happens in a step, as far as it can be told apart from outside. -/
inductive Event (α β : Type) where
  /-- The host starts a batch. -/
  | batch
  /-- The host writes a page frame. -/
  | pageWritten (page : ℕ)
  /-- The host writes a command frame. -/
  | frameWritten (frame : ℕ)
  /-- The host publishes a request. -/
  | enqueued (submission : Submission α β)
  /-- The client has processed a command frame and publishes that. -/
  | processed (frame : ℕ) (pages : List ℕ)
  /-- The host receives a result that no batch is waiting for. -/
  | discarded
  /-- A batch yields a result. -/
  | yielded (reading : Reading α β)

/-! ## The host -/

/-- Where the host is. `queue` is the `VecDeque` of an `ObserveIter`, `fused` says that the iterator
of its requests has ended. -/
inductive HostPc (α β : Type) where
  /-- No batch is open. -/
  | idle
  /-- In the inner loop of `batch_iter`. -/
  | makeRoom
  /-- In the inner loop of `batch_iter`, with the frame of a result. -/
  | discard (frame : ℕ)
  /-- Between two calls of `ObserveIter::next`. -/
  | ready (queue : List (Request α β)) (fused : Bool)
  /-- In the loop of `next` that enqueues. -/
  | fill (queue : List (Request α β)) (fused : Bool)
  /-- In `setup` of a request, with the pages allocated so far. -/
  | setup (queue : List (Request α β)) (request : Request α β) (pages : List ℕ) (contents : List β)
  /-- Before `update_next`. -/
  | updateNext (queue : List (Request α β)) (submission : Submission α β)
  /-- In the loop of `next` that waits for the result of an entry. -/
  | receive (queue : List (Request α β)) (fused : Bool) (entry : Request α β)
  /-- In that loop, with the frame of a result. -/
  | account (queue : List (Request α β)) (fused : Bool) (entry : Request α β) (frame : ℕ)
  /-- Reading the pages of the result. -/
  | readPages (queue : List (Request α β)) (fused : Bool) (reading : Reading α β)

/-- Source: `VmObserver`, the positions and counters -/
structure Host (α β : Type) where
  queue : Queue
  nextCommandFrame : ℕ
  numQueued : ℕ
  pageFramesAllocated : ℕ
  nextPageFrame : ℕ
  numToDiscard : ℕ
  pc : HostPc α β

/-- What the caller of the host decides in a step, where it is asked. -/
structure HostInput (α β : Type) where
  /-- The open batch is dropped rather than continued. -/
  drop : Bool
  /-- What the iterator of the requests returns. -/
  request : Option (Request α β)

namespace Host

/-- Source: `VmObserver::max_len` -/
def maxLen (l : Layout) : ℕ := l.numCommandFrames - 1

/-- Source: `VmObserver::queue_full` -/
def queueFull (l : Layout) (h : Host α β) : Bool :=
  h.numQueued ≥ maxLen l || h.pageFramesAllocated ≥ l.numPageFrames - maxMappings

/-- Source: `PageMapper::page`, `PageMapper::page_mut`: the index is checked -/
def checkPage (l : Layout) (index : ℕ) : Partial Unit :=
  if l.minIndex ≤ index ∧ index < l.minIndex + l.numPageFrames then .ok ()
  else .error .assertionFailed

/-- Source: `PageAllocator::allocate_page` and its variants: the frame index, which is
stored as `u16` in the mapping -/
def allocatePage (l : Layout) (h : Host α β) : Partial (ℕ × Host α β) := do
  let frameIndex := h.nextPageFrame + l.minIndex
  let h := { h with
    nextPageFrame := (h.nextPageFrame + 1) % l.numPageFrames
    pageFramesAllocated := h.pageFramesAllocated + 1 }
  if h.pageFramesAllocated ≥ l.numPageFrames then .error .explicitPanic
  else do
    checkPage l frameIndex
    return (frameIndex, h)

/-- Source: `VmObserver::receive_result_unchecked`, after `try_dequeue` -/
def accountFor (mappings : List ℕ) (h : Host α β) : Partial (Host α β) :=
  if h.pageFramesAllocated < mappings.length ∨ h.numQueued = 0 then .error .arithmeticOverflow
  else .ok { h with
    pageFramesAllocated := h.pageFramesAllocated - mappings.length
    numQueued := h.numQueued - 1 }

/-- Source: `self.num_to_discard -= 1` -/
def discardOne (h : Host α β) : Partial (Host α β) :=
  if h.numToDiscard = 0 then .error .arithmeticOverflow
  else .ok { h with numToDiscard := h.numToDiscard - 1 }

/-- The end of the loop of `next` that enqueues: `pop_front`. -/
def popFront (queue : List (Request α β)) (fused : Bool) : HostPc α β :=
  match queue with
  | [] => .ready [] fused
  | entry :: queue => .receive queue fused entry

/-- A step of the host. -/
def step (l : Layout) (input : HostInput α β) (m : Shared α β) (h : Host α β) :
    Partial (Shared α β × Host α β × Option (Event α β)) :=
  match h.pc with
  | .idle =>
    .ok (m, { h with pc := if h.numToDiscard > 0 then .makeRoom else .ready [] false }, some .batch)
  | .makeRoom =>
    match h.queue.tryDequeue l m.current with
    | (some frame, queue) => .ok (m, { h with queue, pc := .discard frame }, none)
    | (none, queue) =>
      let h := { h with queue }
      .ok (m, { h with pc := if h.queueFull l then .makeRoom else .ready [] false }, none)
  | .discard frame => do
    let h ← h.accountFor (m.commandFrames frame).mappings
    let h ← h.discardOne
    return (m, { h with pc := if h.numToDiscard = 0 then .ready [] false else .makeRoom },
      some .discarded)
  | .ready queue fused =>
    -- `discard_pending`
    if input.drop then .ok (m, { h with numToDiscard := h.numQueued, pc := .idle }, none)
    else .ok (m, { h with pc := .fill queue fused }, none)
  | .fill queue fused =>
    if h.queueFull l || fused then .ok (m, { h with pc := popFront queue fused }, none)
    else
      match input.request with
      | none => .ok (m, { h with pc := popFront queue true }, none)
      | some request => .ok (m, { h with pc := .setup queue request [] [] }, none)
  | .setup queue request pages contents =>
    match request.setupPages[contents.length]? with
    | some setupPage => do
      let (index, h) ← h.allocatePage l
      let content := setupPage (m.pageFrames index)
      return ({ m with pageFrames := Function.update m.pageFrames index content },
        { h with pc := .setup queue request (pages ++ [index % 2 ^ 16]) (contents ++ [content]) },
        some (.pageWritten index))
    | none =>
      let frame := h.nextCommandFrame
      if maxMappings < pages.length then .error .indexOutOfBounds
      else
        let data := request.setupFrame (m.commandFrames frame).data
        .ok ({ m with commandFrames := Function.update m.commandFrames frame ⟨pages, data⟩ },
          { h with pc := .updateNext queue ⟨request, frame, pages, data, contents⟩ },
          some (.frameWritten frame))
  | .updateNext queue submission =>
    let next := (h.nextCommandFrame + 1) % l.numCommandFrames
    .ok ({ m with next },
      { h with
        nextCommandFrame := next
        numQueued := h.numQueued + 1
        pc := .fill (queue ++ [submission.request]) false },
      some (.enqueued submission))
  | .receive queue fused entry =>
    match h.queue.tryDequeue l m.current with
    | (some frame, q) => .ok (m, { h with queue := q, pc := .account queue fused entry frame }, none)
    | (none, q) => .ok (m, { h with queue := q }, none)
  | .account queue fused entry frame => do
    let numToDiscard := h.numToDiscard
    let result := m.commandFrames frame
    let h ← h.accountFor result.mappings
    if numToDiscard > 0 then do
      let h ← h.discardOne
      return (m, { h with pc := .receive queue fused entry }, some .discarded)
    else
      return (m, { h with
        pc := .readPages queue fused ⟨entry, frame, result.mappings, result.data, []⟩ }, none)
  | .readPages queue fused reading =>
    match reading.pages[reading.contents.length]? with
    | some index => do
      checkPage l index
      return (m, { h with
        pc := .readPages queue fused
          { reading with contents := reading.contents ++ [m.pageFrames index] } }, none)
    | none => .ok (m, { h with pc := .ready queue fused }, some (.yielded reading))

end Host

/-! ## The client -/

/-- Where the client is; the lists are the mapped page frames and the pages as they were read. -/
inductive ClientPc (α β : Type) where
  /-- Before `receive_request`. -/
  | idle
  /-- With a command frame. -/
  | readFrame (frame : ℕ)
  /-- Reading the pages. -/
  | readPages (frame : ℕ) (pages : List ℕ) (data : α) (contents : List β)
  /-- Executing, with the pages that have been written. -/
  | writePages (frame : ℕ) (pages : List ℕ) (data : α) (contents : List β) (written : ℕ)
  /-- Executing, with all pages written. -/
  | writeFrame (frame : ℕ) (pages : List ℕ) (data : α) (contents : List β)
  /-- Before `mark_processed`. -/
  | markProcessed (frame : ℕ) (pages : List ℕ)

/-- Source: `vmimage-x86-64/src/queue.rs`, `Incoming`, with one queue -/
structure Client (α β : Type) where
  queue : Queue
  pc : ClientPc α β

namespace Client

/-- Source: `vmimage-x86-64/src/queue.rs`, `Incoming::receive_request`, with one queue -/
def receiveRequest (l : Layout) (next : ℕ) (q : Queue) : Option ℕ × Queue :=
  let (available, q) := q.requestAvailable l next
  if available then q.tryDequeue l next else (none, q)

/-- A step of the client. -/
def step (l : Layout) (o : Observation α β) (m : Shared α β) (c : Client α β) :
    Shared α β × Client α β × Option (Event α β) :=
  match c.pc with
  | .idle =>
    match receiveRequest l m.next c.queue with
    | (some frame, queue) => (m, ⟨queue, .readFrame frame⟩, none)
    | (none, queue) => (m, ⟨queue, .idle⟩, none)
  | .readFrame frame =>
    let cmd := m.commandFrames frame
    (m, { c with pc := .readPages frame cmd.mappings cmd.data [] }, none)
  | .readPages frame pages data contents =>
    match pages[contents.length]? with
    | some index =>
      (m, { c with pc := .readPages frame pages data (contents ++ [m.pageFrames index]) }, none)
    | none => (m, { c with pc := .writePages frame pages data contents 0 }, none)
  | .writePages frame pages data contents written =>
    match pages[written]? with
    | some index =>
      ({ m with pageFrames := Function.update m.pageFrames index (o.page data contents written) },
        { c with pc := .writePages frame pages data contents (written + 1) }, none)
    | none => (m, { c with pc := .writeFrame frame pages data contents }, none)
  | .writeFrame frame pages data contents =>
    let cmd := { m.commandFrames frame with data := o.frame data contents }
    ({ m with commandFrames := Function.update m.commandFrames frame cmd },
      { c with pc := .markProcessed frame pages }, none)
  | .markProcessed frame pages =>
    ({ m with current := c.queue.readIndex }, { c with pc := .idle }, some (.processed frame pages))

end Client

/-! ## Runs -/

/-- The shared memory and both sides. -/
structure World (α β : Type) where
  shared : Shared α β
  host : Host α β
  client : Client α β

/-- Source: `Vm::observers`; the client has set `current` to zero -/
def World.init (commandFrames : ℕ → CommandFrame α) (pageFrames : ℕ → β) : World α β where
  shared := ⟨0, 0, commandFrames, pageFrames⟩
  host := ⟨.new, 0, 0, 0, 0, 0, .idle⟩
  client := ⟨.new, .idle⟩

/-- A step of either side. -/
inductive Step (l : Layout) (o : Observation α β) : World α β → Option (Event α β) → World α β → Prop
  | host {w} (input : HostInput α β) {m h e} (ok : w.host.step l input w.shared = .ok (m, h, e)) :
      Step l o w e { w with shared := m, host := h }
  | client {w m c e} (ok : w.client.step l o w.shared = (m, c, e)) :
      Step l o w e { w with shared := m, client := c }

/-- A run with its events, the latest first. -/
inductive Run (l : Layout) (o : Observation α β) : List (Event α β) → World α β → Prop
  | init (commandFrames : ℕ → CommandFrame α) (pageFrames : ℕ → β) :
      Run l o [] (.init commandFrames pageFrames)
  | step {events w w' e}
      (run : Run l o events w) (s : Step l o w e w') : Run l o (e.toList ++ events) w'

end LibLisa.Observer
