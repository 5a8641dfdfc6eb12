import LibLisa.Observer.Contents

/-!
# Results match their requests

Every step of either side keeps the invariants of the shared memory queue (`Inv.step`), and from
them every event of a run is right: the host never writes into a request in flight, and a batch
yields, in order, what the client left of its own requests (`observations_match`). The host cannot
panic either; in particular it never runs out of page frames.
-/

namespace LibLisa.Observer

open Lib Lib.Ring List History Option

variable {α β : Type} {l : Layout} {o : Observation α β} {w w' : World α β} {H : History α β}
  {e : Option (Event α β)}

/-- The invariants of a run. -/
structure Inv (l : Layout) (o : Observation α β) (w : World α β) (H : History α β) : Prop where
  positions : Positions l w.shared w.host w.client H
  allocation : Allocation l w.host H
  batches : Batches w.host H
  contents : Contents o w.shared w.host w.client H

namespace Inv

lemma init (commandFrames : ℕ → CommandFrame α) (pageFrames : ℕ → β) :
    Inv l o (.init commandFrames pageFrames) (.ofEvents []) :=
  ⟨.init _ _, .init _ _, .init _ _,
    ⟨fun _ _ _ hi => (nomatch hi), rfl, fun _ hs => (nomatch hs), nofun, nofun, nofun⟩⟩

/-! ## Steps -/

variable {h : Host α β}

section

variable (I : Inv l o w H) {m : Shared α β} {c : Client α β}
include I

lemma host_step (hstep : HostStep l w.shared w.host m h e) :
    Inv l o { w with shared := m, host := h } (H.after e) := by
  refine ⟨I.positions.host_step hstep, I.allocation.host_step I.positions (fun f hf => ?_) hstep,
    I.batches.host_step I.positions hstep, I.contents.host_step I.positions I.allocation hstep⟩
  obtain ⟨s, hs, rfl, -, hstored⟩ := I.contents.mapped I.positions I.allocation hf
  exact ⟨s, hs, hstored.mappings_eq⟩

/-- The client goes on in the code of a request, without writing. -/
lemma client_reads (hbusy : w.client.pc.taken = 1) {pc : ClientPc α β} (hpc : pc.taken = 1)
    (hwritten : pc.written = w.client.pc.written) (hdone : pc.frameDone = w.client.pc.frameDone)
    (hholds : ∀ s : Submission α β, H.submissions[H.processed.length]? = some s → pc.Holds s) :
    Inv l o { w with client := { w.client with pc } } H :=
  ⟨I.positions.client_working hbusy hpc, I.allocation, I.batches,
    I.contents.client_move hwritten hdone hholds⟩

lemma client_receives (hpc : w.client.pc = .idle) (hok : w.client.step l o w.shared = (m, c, e)) :
    Inv l o { w with shared := m, client := c } (H.after e) := by
  unfold Client.step at hok
  have hat := I.positions.client_at
  have hreceived := I.positions.received_le
  have hwindow := I.positions.window
  rw [hpc] at hok hat
  rw [I.positions.next_eq] at hok
  rcases hat.receiveRequest (by omega) with ⟨q, hq, hat⟩ | ⟨q, hq, hat⟩
  · rw [hq] at hok
    obtain ⟨rfl, rfl, rfl⟩ := hok
    refine ⟨{ I.positions with client_at := hat }, I.allocation, I.batches, ?_⟩
    exact I.contents.client_move (by rw [hpc]) (by rw [hpc]) fun _ _ => trivial
  · rw [hq] at hok
    obtain ⟨rfl, rfl, rfl⟩ := hok
    refine ⟨{ I.positions with client_at := hat }, I.allocation, I.batches, ?_⟩
    refine I.contents.client_move (by rw [hpc]; rfl) (by rw [hpc]; rfl) fun s hs => ?_
    exact (I.allocation.placed _ s hs).frame_eq.symm

lemma client_step (hok : w.client.step l o w.shared = (m, c, e)) :
    Inv l o { w with shared := m, client := c } (H.after e) := by
  obtain ⟨shared, host, queue, pc⟩ := w
  cases pc with
  | idle => exact I.client_receives rfl hok
  | readFrame frame =>
    obtain ⟨rfl, rfl, rfl⟩ := hok
    refine I.client_reads rfl rfl rfl rfl fun s hs => ?_
    obtain ⟨s', hs', hr, hholds, hstored⟩ := I.contents.exists_taken I.positions rfl
    obtain rfl := mem_unique hs' hs
    obtain rfl : frame = s'.frame := hholds
    exact ⟨rfl, hstored.mappings_eq, hstored.data_eq, rfl⟩
  | readPages frame pages data contents =>
    obtain ⟨s, hs, hr, hholds, hstored⟩ := I.contents.exists_taken I.positions rfl
    obtain ⟨hframe, rfl, hdata, hcontents⟩ := hholds
    have hlength := (I.allocation.placed _ _ hs).length_contents
    dsimp only [Client.step] at hok
    split at hok
    next index hindex =>
      -- what the client has read so far, with one more page
      obtain ⟨rfl, rfl, rfl⟩ := hok
      refine I.client_reads rfl rfl rfl rfl fun s' hs' => ?_
      obtain rfl := mem_unique hs hs'
      have hlt : contents.length < s.contents.length := hlength ▸ lt_of_getElem? hindex
      have hpage : m.pageFrames index = s.contents.get ⟨_, hlt⟩ :=
        hstored.page_eq _ _ _ hindex (getElem?_eq_getElem hlt)
      refine ⟨hframe, rfl, hdata, ?_⟩
      rw [length_append, length_singleton, take_add_one,
        getElem?_eq_getElem hlt, ← hcontents, hpage]
      rfl
    next hend =>
      obtain ⟨rfl, rfl, rfl⟩ := hok
      refine I.client_reads rfl rfl rfl rfl fun s' hs' => ?_
      obtain rfl := mem_unique hs hs'
      rw [take_of_length_le (hlength ▸ getElem?_eq_none_iff.mp hend)] at hcontents
      exact ⟨hframe, rfl, hdata, hcontents⟩
  | writePages frame pages data contents written =>
    dsimp only [Client.step] at hok
    split at hok
    next index hindex =>
      obtain ⟨rfl, rfl, rfl⟩ := hok
      exact ⟨I.positions.client_working rfl rfl, I.allocation, I.batches,
        I.contents.client_writePage I.positions I.allocation rfl hindex⟩
    next hend =>
      obtain ⟨rfl, rfl, rfl⟩ := hok
      obtain ⟨s, hs, hr, ⟨rfl, rfl, rfl, rfl⟩, hstored⟩ := I.contents.exists_taken I.positions rfl
      refine ⟨I.positions.client_working rfl rfl, I.allocation, I.batches, ?_⟩
      exact I.contents.client_write hs (hstored.of_le (getElem?_eq_none_iff.mp hend))
        (fun _ _ _ _ _ _ _ ht => ht) (fun _ _ _ _ _ _ _ => rfl) (fun _ _ _ ht => ht)
        ⟨rfl, rfl, rfl, rfl⟩
  | writeFrame frame pages data contents =>
    obtain ⟨rfl, rfl, rfl⟩ := hok
    exact ⟨I.positions.client_working rfl rfl, I.allocation, I.batches,
      I.contents.client_writeFrame I.positions I.allocation rfl⟩
  | markProcessed frame pages =>
    obtain ⟨rfl, rfl, rfl⟩ := hok
    exact ⟨I.positions.client_publish rfl frame pages, { I.allocation with },
      { I.batches with }, I.contents.client_publish I.positions rfl _⟩

lemma step (hstep : Step l o w e w') : Inv l o w' (H.after e) := by
  rcases hstep with ⟨input, hok⟩ | hok
  · exact I.host_step (hostStep_of_ok hok)
  · exact I.client_step hok

end

lemma of_run {events : List (Event α β)} (run : Run l o events w) :
    Inv l o w (.ofEvents events) := by
  induction run with
  | init commandFrames pageFrames => exact .init commandFrames pageFrames
  | step _ hstep ih =>
    rw [ofEvents_append]
    exact ih.step hstep

/-! ## Events -/

lemma exists_of_mem_inFlight {s : Submission α β} (hs : s ∈ H.inFlight) :
    ∃ i, H.received ≤ i ∧ H.submissions[i]? = some s := by
  obtain ⟨j, hj⟩ := mem_iff_getElem?.mp hs
  rw [inFlight, getElem?_drop] at hj
  exact ⟨H.received + j, Nat.le_add_right _ _, hj⟩

variable {queue : List (Request α β)}

/-- A batch yields the result of its next request. -/
lemma yields (I : Inv l o w H) {fused : Bool} {r : Reading α β}
    (hpc : w.host.pc = .readPages queue fused r) (hend : r.pages[r.contents.length]? = none) :
    H.Allows o (.yielded r) := by
  obtain ⟨s, hs, hframe, hpages, hdata, hle, hcontents⟩ := I.contents.reading _ _ _ hpc
  have hstart := I.batches.reading _ _ _ hpc
  have hyields := I.batches.yields_eq (by rw [hpc]; exact nofun)
  have hposition : H.batchStart + H.yields = H.received := by omega
  have hreceived := I.positions.received_le
  rw [hpc] at hreceived
  have hprocessed : H.received < H.processed.length := hreceived
  refine ⟨s, ?_, ⟨?_, hframe, hpages, hdata, ?_⟩, ?_⟩
  · rw [batchSubmissions, getElem?_drop, hposition]
    exact hs
  · have hentries := I.batches.entries (r.entry :: queue) (by rw [hpc]; rfl)
    rw [max_eq_left hstart] at hentries
    have hhead := congrArg (·[0]?) hentries
    rw [getElem?_map, getElem?_drop, Nat.add_zero, hs] at hhead
    exact some.inj hhead
  · have hlength : r.contents.length = s.pages.length :=
      le_antisymm hle (hpages ▸ getElem?_eq_none_iff.mp hend)
    rw [hcontents, hlength]
  · rw [hposition, I.contents.processed_eq, getElem?_map, getElem?_take,
      if_pos hprocessed, hs]
    rfl

/-- Every event of a step is allowed. -/
lemma allows (I : Inv l o w H) (hstep : Step l o w e w') : ∀ ev ∈ e, H.Allows o ev := by
  rcases hstep with ⟨input, hok⟩ | hok
  · cases hostStep_of_ok hok with
    | allocate hpc hsetup hroom hindex hi =>
      rintro ev ⟨⟩ s hs
      obtain ⟨i, hr, hi'⟩ := exists_of_mem_inFlight hs
      rw [hi, I.allocation.pageIndex_eq]
      exact I.allocation.not_mem_pages hr hi' (le_refl _)
    | writeFrame hpc hsetup hlen hdata =>
      rintro ev ⟨⟩ s hs
      obtain ⟨i, hr, hi⟩ := exists_of_mem_inFlight hs
      exact nextCommandFrame_ne I.positions I.allocation hr hi
    | yield hpc hend =>
      rintro ev ⟨⟩
      exact I.yields hpc hend
    | start | discard | enqueue | discardLate =>
      rintro ev ⟨⟩
      trivial
    | _ => exact nofun
  · unfold Client.step at hok
    split at hok
    all_goals try split at hok
    all_goals
      obtain ⟨-, -, rfl⟩ := hok
      rintro ev ⟨⟩
    trivial

/-! ## No panics -/

/-- A result can be counted: its request is queued and its pages are allocated. -/
lemma exists_accountFor (I : Inv l o w H) {f : ℕ} (hf : w.host.pc.frame = some f)
    (hpending : w.host.pc.pending = 0) (ha : w.host.pc.accounted = 0) :
    ∃ h : Host α β, w.host.accountFor (w.shared.commandFrames f).mappings = .ok h ∧
      h.numToDiscard = w.host.numToDiscard := by
  obtain ⟨s, hs, rfl, hlt, hstored⟩ := I.contents.mapped I.positions I.allocation hf
  have hallocated := I.allocation.allocated_eq
  have hqueued := I.positions.numQueued_eq
  have hprocessed := I.positions.processed_le
  have htotal : H.pagesBefore (H.received + 1) ≤ H.totalPages := pagesBefore_le_total _
  rw [pagesBefore_succ hs] at htotal
  rw [ha, Nat.add_zero] at hallocated
  rw [Host.accountFor, hstored.mappings_eq, if_neg (by omega)]
  exact ⟨_, rfl, rfl⟩

lemma exists_discardOne (hpos : 0 < h.numToDiscard) : ∃ h', h.discardOne = .ok h' :=
  ⟨_, if_neg hpos.ne'⟩

lemma exists_allocatePage (I : Inv l o w H) {request : Request α β}
    {pages : List ℕ} {contents : List β} (hpc : w.host.pc = .setup queue request pages contents)
    (hlt : contents.length < request.setupPages.length) : ∃ r, w.host.allocatePage l = .ok r := by
  obtain ⟨hroom, -, hlength, -⟩ := I.allocation.setup _ _ _ _ hpc
  have hallocated := I.allocation.allocated_eq
  have hindex := I.allocation.pageIndex_eq
  have hmax := request.length_le
  rw [hpc] at hallocated hindex
  have hallocated' : w.host.pageFramesAllocated + H.pagesBefore H.received =
      H.totalPages + pages.length := hallocated
  have hcheck : Host.checkPage l (w.host.nextPageFrame + l.minIndex) = .ok () := by
    rw [checkPage_eq_ok, hindex]
    exact l.pageIndex_lt _
  unfold Host.allocatePage
  dsimp only
  rw [if_neg (by omega), hcheck]
  exact ⟨_, rfl⟩

/-- The host can always go on. -/
lemma exists_host_step (I : Inv l o w H) (input : HostInput α β) :
    ∃ r, w.host.step l input w.shared = .ok r := by
  obtain ⟨m, ⟨queue, nextCommandFrame, numQueued, allocated, nextPageFrame, numToDiscard, pc⟩, c⟩ := w
  unfold Host.step
  cases pc with dsimp only
  | idle | updateNext queue s => exact ⟨_, rfl⟩
  | makeRoom | ready queue fused | receive queue fused entry => split <;> exact ⟨_, rfl⟩
  | discard f =>
    have hroom := I.batches.makeRoom rfl
    have hdiscard := I.batches.discard_eq nofun
    obtain ⟨h, hok, hsame⟩ := I.exists_accountFor rfl rfl rfl
    obtain ⟨h', hok'⟩ := exists_discardOne (h := h) (by omega)
    rw [hok, ok_bind, hok']
    exact ⟨_, rfl⟩
  | fill queue fused =>
    split
    · exact ⟨_, rfl⟩
    · split <;> exact ⟨_, rfl⟩
  | setup queue request pages contents =>
    split
    next setupPage hsetup =>
      obtain ⟨r, hr⟩ := I.exists_allocatePage rfl (lt_of_getElem? hsetup)
      rw [hr]
      exact ⟨_, rfl⟩
    next =>
      obtain ⟨-, -, -, hle⟩ := I.allocation.setup _ _ _ _ rfl
      have hmax := request.length_le
      rw [if_neg (by omega)]
      exact ⟨_, rfl⟩
  | account queue fused entry f =>
    obtain ⟨h, hok, hsame⟩ := I.exists_accountFor rfl rfl rfl
    rw [hok, ok_bind]
    split
    next hpos =>
      obtain ⟨h', hok'⟩ := exists_discardOne (h := h) (hsame ▸ hpos)
      rw [hok']
      exact ⟨_, rfl⟩
    next => exact ⟨_, rfl⟩
  | readPages queue fused r =>
    split
    next index hindex =>
      obtain ⟨s, hs, -, hpages, -⟩ := I.contents.reading _ _ _ rfl
      have hmem := mem_of_getElem? hindex
      rw [hpages] at hmem
      obtain ⟨a, -, -, rfl, -⟩ := I.allocation.exists_position (le_refl _) hs hmem
      rw [checkPage_eq_ok.mpr (l.pageIndex_lt a)]
      exact ⟨_, rfl⟩
    next => exact ⟨_, rfl⟩

end Inv

/-! ## Runs -/

/-- In every run, every event is allowed after what came before it, and the host does not panic:
no request in flight is overwritten, the host always has a page frame, and the results of a batch
are those of its own requests, in order. -/
theorem observations_match {events : List (Event α β)} (run : Run l o events w) :
    (∀ later ev earlier, events = later ++ ev :: earlier →
        (History.ofEvents earlier).Allows o ev) ∧
      ∀ input, ∃ r, w.host.step l input w.shared = .ok r := by
  refine ⟨?_, fun input => (Inv.of_run run).exists_host_step input⟩
  induction run with
  | init => exact fun later ev earlier h => absurd h (by simp)
  | @step events w w' e run hstep ih =>
    intro later ev earlier h
    rcases e with _ | e
    · exact ih later ev earlier h
    · rcases later with _ | ⟨e', later⟩
      · obtain ⟨rfl, rfl⟩ := cons.inj h
        exact (Inv.of_run run).allows hstep e rfl
      · exact ih later ev earlier (cons.inj h).2

/-- The steps of a schedule: of the host with an input, or of the client. -/
def World.exec (l : Layout) (o : Observation α β) :
    List (Option (HostInput α β)) → List (Event α β) → World α β →
      Partial (List (Event α β) × World α β)
  | [], events, w => .ok (events, w)
  | some input :: schedule, events, w => do
    let (m, h, e) ← w.host.step l input w.shared
    exec l o schedule (e.toList ++ events) { w with shared := m, host := h }
  | none :: schedule, events, w =>
    let (m, c, e) := w.client.step l o w.shared
    exec l o schedule (e.toList ++ events) { w with shared := m, client := c }

lemma Run.exec {schedule : List (Option (HostInput α β))} {events events' : List (Event α β)}
    (run : Run l o events w) (h : w.exec l o schedule events = .ok (events', w')) :
    Run l o events' w' := by
  induction schedule generalizing events w with
  | nil =>
    obtain ⟨rfl, rfl⟩ := Except.ok.inj h
    exact run
  | cons turn schedule ih =>
    rcases turn with _ | input
    · exact ih (run.step (.client rfl)) h
    · obtain ⟨⟨m, host, e⟩, hok, h⟩ := ok_of_bind h
      exact ih (run.step (.host input hok)) h

/-- A queue with five command frames. -/
def smallLayout : Layout := ⟨5, 68, 0, by decide, by decide, by decide⟩

/-- The client adds the contents of the pages to the frame, and counts the pages. -/
def sumPages : Observation ℕ ℕ := ⟨fun data contents => data + contents.sum, fun _ _ j => j⟩

/-- A request with one page. -/
def onePage (n : ℕ) : Request ℕ ℕ := ⟨fun _ => n, [fun _ => 2], by decide⟩

/-- The host makes `n` steps, with a request if it asks for one. -/
def hostSteps (n : ℕ) (request : Option (Request ℕ ℕ)) : List (Option (HostInput ℕ ℕ)) :=
  replicate n (some ⟨false, request⟩)

/-- A batch that fills the queue, and is dropped after its first result, when the client has
processed two requests. -/
def droppedBatch : List (Option (HostInput ℕ ℕ)) :=
  hostSteps 2 none ++ [1, 2, 3, 4].flatMap (fun n => hostSteps 4 (some (onePage n))) ++
    hostSteps 1 none ++ replicate 16 none ++ hostSteps 4 none ++ [some ⟨true, none⟩]

/-- A batch of two requests after that. The frame of the second one has been used before. -/
def nextBatch : List (Option (HostInput ℕ ℕ)) :=
  hostSteps 5 none ++ [5, 6].flatMap (fun n => hostSteps 4 (some (onePage n))) ++
    replicate 32 none ++ hostSteps 15 none

set_option maxRecDepth 1000 in
/-- The last result of the second batch is the sum that the client has left in the frame. -/
theorem observations_match_nextBatch :
    ∃ events w, Run smallLayout sumPages (.yielded ⟨onePage 6, 0, [5], 8, [0]⟩ :: events) w ∧
      (History.ofEvents events).Allows sumPages (.yielded ⟨onePage 6, 0, [5], 8, [0]⟩) := by
  obtain ⟨events, w, h⟩ : ∃ events w, (World.init (fun _ => ⟨[], 0⟩) fun _ => 0).exec smallLayout
      sumPages (droppedBatch ++ nextBatch) [] =
        .ok (.yielded ⟨onePage 6, 0, [5], 8, [0]⟩ :: events, w) := ⟨_, _, rfl⟩
  have run := (Run.init _ _).exec h
  exact ⟨events, w, run, (observations_match run).1 [] _ events rfl⟩

/-- In every run, the requests in flight have frames and pages of their own, the client has processed
the oldest requests once each and in order, and between batches the host counts what is in flight. -/
theorem inFlight_owned {events : List (Event α β)} (run : Run l o events w)
    (hH : H = .ofEvents events) :
    H.inFlight.Pairwise (fun s t => s.frame ≠ t.frame ∧ s.pages.Disjoint t.pages) ∧
      (∀ s ∈ H.inFlight, s.pages.Nodup ∧ ∀ p ∈ s.pages, Host.checkPage l p = .ok ()) ∧
      H.processed = (H.submissions.take H.processed.length).map (fun s => (s.frame, s.pages)) ∧
      (w.host.pc = .idle → w.host.numQueued = H.inFlight.length ∧
        w.host.pageFramesAllocated = (H.inFlight.map (·.pages.length)).sum) := by
  obtain ⟨P, A, -, C⟩ : Inv l o w H := hH ▸ .of_run run
  refine ⟨pairwise_iff_getElem.mpr fun i j hi hj hij => ?_, fun s hs => ?_, C.processed_eq,
    fun hpc => ?_⟩
  · have hs := getElem?_eq_getElem hi
    have ht := getElem?_eq_getElem hj
    simp only [inFlight, getElem?_drop] at hs ht
    have hle := Nat.le_add_right H.received
    have hne : H.received + i ≠ H.received + j := by omega
    exact ⟨frame_ne P A (hle i) hs (hle j) ht hne,
      fun p hp => A.disjoint_pages (hle i) hs (hle j) ht hne hp⟩
  · obtain ⟨i, hr, hi⟩ := Inv.exists_of_mem_inFlight hs
    refine ⟨A.nodup_pages hr hi, fun p hp => ?_⟩
    obtain ⟨a, -, -, rfl, -⟩ := A.exists_position hr hi hp
    exact checkPage_eq_ok.mpr (l.pageIndex_lt a)
  · have hqueued := P.numQueued_eq
    have hallocated := A.allocated_eq
    have htotal : H.totalPages = H.pagesBefore H.received + (H.inFlight.map (·.pages.length)).sum := by
      rw [totalPages, pagesBefore, take_length, pagesBefore, inFlight, ← sum_append, ← map_append,
        take_append_drop]
    have hlength : H.inFlight.length = H.submissions.length - H.received := length_drop
    simp only [hpc, HostPc.accounted, HostPc.pending, Nat.add_zero] at hqueued hallocated
    omega

/-- Between the two batches three requests are in flight, and the client has processed one of them. -/
theorem inFlight_owned_droppedBatch : ∃ events w, Run smallLayout sumPages events w ∧
    w.host.pc = .idle ∧
    (History.ofEvents events).inFlight.map (fun s => (s.frame, s.pages)) =
      [(1, [1]), (2, [2]), (3, [3])] ∧
    (History.ofEvents events).processed = [(0, [0]), (1, [1])] ∧
    (History.ofEvents events).inFlight.Pairwise
      (fun s t => s.frame ≠ t.frame ∧ s.pages.Disjoint t.pages) ∧
    w.host.numQueued = (History.ofEvents events).inFlight.length := by
  obtain ⟨events, w, h, hpc, hflight, hprocessed⟩ : ∃ events w,
      (World.init (fun _ => ⟨[], 0⟩) fun _ => 0).exec smallLayout sumPages droppedBatch [] =
        .ok (events, w) ∧ w.host.pc = .idle ∧
      (History.ofEvents events).inFlight.map (fun s => (s.frame, s.pages)) =
        [(1, [1]), (2, [2]), (3, [3])] ∧
      (History.ofEvents events).processed = [(0, [0]), (1, [1])] := ⟨_, _, rfl, rfl, rfl, rfl⟩
  have run := (Run.init _ _).exec h
  obtain ⟨howned, -, -, hcount⟩ := inFlight_owned run rfl
  exact ⟨events, w, run, hpc, hflight, hprocessed, howned, (hcount hpc).1⟩

end LibLisa.Observer
