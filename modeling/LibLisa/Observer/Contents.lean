import LibLisa.Observer.Invariant
import Mathlib.Data.List.Nodup

/-!
# What is in the frames of the shared memory queue

`Contents` says for every request that has not been received what its command frame and its pages
hold: what the host wrote, what the client left there, or a part of each while the client executes
it. A write of either side goes to a cell that no other request in the window of the rings uses, so
it changes nothing for the others.
-/

namespace LibLisa.Observer

open Lib Lib.Ring List Client History Function Option

variable {α β : Type} {s : Submission α β} {p : ℕ}

/-! ## Different cells -/

section cells

variable {l : Layout} {m : Shared α β} {h : Host α β} {c : Client α β} {H : History α β}

namespace Allocation

variable {i : ℕ}

section

variable (A : Allocation l h H)
include A

/-- The position of a page of a request. -/
lemma exists_position (hr : H.received ≤ i) (hi : H.submissions[i]? = some s) (hp : p ∈ s.pages) :
    ∃ a, H.pagesBefore i ≤ a ∧ a < H.pagesBefore (i + 1) ∧ p = l.pageIndex a ∧
      H.pagesBefore H.received ≤ a ∧ a < H.totalPages := by
  rw [(A.placed i s hi).pages_eq] at hp
  obtain ⟨j, hj, rfl⟩ := mem_consecutive.mp hp
  have hfirst : H.pagesBefore H.received ≤ H.pagesBefore i := pagesBefore_mono hr
  have hlast : H.pagesBefore (i + 1) ≤ H.totalPages := pagesBefore_le_total _
  have hsucc := pagesBefore_succ hi
  exact ⟨H.pagesBefore i + j, Nat.le_add_right _ _, by omega, rfl, by omega, by omega⟩

/-- Positions of pages in use, the next one included, stand for different page frames. -/
lemma pageIndex_ne {a b : ℕ} (ha : H.pagesBefore H.received ≤ a ∧ a ≤ H.totalPages + h.pc.pending)
    (hb : H.pagesBefore H.received ≤ b ∧ b ≤ H.totalPages + h.pc.pending) (hne : a ≠ b) :
    l.pageIndex a ≠ l.pageIndex b := by
  intro heq
  exact mod_ne_of_window A.window ⟨ha.1, Nat.lt_succ_of_le ha.2⟩ ⟨hb.1, Nat.lt_succ_of_le hb.2⟩ hne
    (Nat.add_left_cancel heq)

/-- A page of a request in flight is none of the pages from the end of the requests on. -/
lemma not_mem_pages (hr : H.received ≤ i) (hi : H.submissions[i]? = some s)
    {j : ℕ} (hj : j ≤ h.pc.pending) : l.pageIndex (H.totalPages + j) ∉ s.pages := by
  intro hp
  obtain ⟨a, -, -, heq, hfirst, hlast⟩ := A.exists_position hr hi hp
  exact A.pageIndex_ne (by omega) (by omega) (by omega) heq

/-- Requests in flight have different pages. -/
lemma disjoint_pages {j : ℕ} {t : Submission α β} (hri : H.received ≤ i)
    (hi : H.submissions[i]? = some s) (hrj : H.received ≤ j) (hj : H.submissions[j]? = some t)
    (hne : i ≠ j) (hp : p ∈ s.pages) : p ∉ t.pages := by
  intro hp'
  obtain ⟨a, ha, ha', rfl, hfirst, hlast⟩ := A.exists_position hri hi hp
  obtain ⟨b, hb, hb', heq, hfirst', hlast'⟩ := A.exists_position hrj hj hp'
  have hab : a ≠ b := by
    rcases Nat.lt_or_gt_of_ne hne with hlt | hlt
    · have hmono : H.pagesBefore (i + 1) ≤ H.pagesBefore j := pagesBefore_mono hlt
      omega
    · have hmono : H.pagesBefore (j + 1) ≤ H.pagesBefore i := pagesBefore_mono hlt
      omega
  exact A.pageIndex_ne (by omega) (by omega) hab heq

/-- The pages of a request in flight are different ones. -/
lemma nodup_pages (hr : H.received ≤ i) (hi : H.submissions[i]? = some s) : s.pages.Nodup := by
  have hfirst : H.pagesBefore H.received ≤ H.pagesBefore i := pagesBefore_mono hr
  have hlast : H.pagesBefore (i + 1) ≤ H.totalPages := pagesBefore_le_total _
  rw [pagesBefore_succ hi] at hlast
  rw [(A.placed i s hi).pages_eq]
  refine List.Nodup.map_on ?_ nodup_range
  intro j hj k hk heq
  rw [mem_range] at hj hk
  by_contra hne
  exact A.pageIndex_ne (by omega) (by omega) (by omega) heq

end

end Allocation

/-- Requests in flight lie in different command frames. -/
lemma frame_ne (P : Positions l m h c H) (A : Allocation l h H) {i j : ℕ} {s t : Submission α β}
    (hri : H.received ≤ i) (hi : H.submissions[i]? = some s) (hrj : H.received ≤ j)
    (hj : H.submissions[j]? = some t) (hne : i ≠ j) : s.frame ≠ t.frame := by
  have hwindow := P.window
  have hfits : H.submissions.length ≤ H.received + l.numCommandFrames := by omega
  have hi' := lt_of_getElem? hi
  have hj' := lt_of_getElem? hj
  rw [(A.placed i s hi).frame_eq, (A.placed j t hj).frame_eq]
  exact mod_ne_of_window hfits ⟨hri, hi'⟩ ⟨hrj, hj'⟩ hne

/-- No request in flight lies in the command frame that is written next. -/
lemma nextCommandFrame_ne (P : Positions l m h c H) (A : Allocation l h H) {i : ℕ}
    (hr : H.received ≤ i) (hi : H.submissions[i]? = some s) : h.nextCommandFrame ≠ s.frame := by
  have hwindow := P.window
  have hfits : H.submissions.length + 1 ≤ H.received + l.numCommandFrames := by omega
  have hi' := lt_of_getElem? hi
  rw [P.nextCommandFrame_eq, (A.placed i s hi).frame_eq]
  exact mod_ne_of_window hfits ⟨by omega, by omega⟩ ⟨hr, by omega⟩ (by omega)

end cells

/-! ## One request -/

/-- The frame and the pages of a request in memory; the client has executed it as far as the first
`k` pages, and if `done` the frame. -/
structure Submission.Stored (o : Observation α β) (m : Shared α β) (s : Submission α β) (k : ℕ)
    (done : Bool) : Prop where
  mappings_eq : (m.commandFrames s.frame).mappings = s.pages
  data_eq : (m.commandFrames s.frame).data = if done then o.frame s.data s.contents else s.data
  page_eq : ∀ (j p : ℕ) (b : β), s.pages[j]? = some p → s.contents[j]? = some b →
    m.pageFrames p = if j < k then o.page s.data s.contents j else b

namespace Submission.Stored

variable {o : Observation α β} {m : Shared α β} {k : ℕ} {done : Bool}

section

variable (S : s.Stored o m k done)
include S

/-- Nothing changes when another page is written. -/
lemma update_page (hp : p ∉ s.pages) (b : β) :
    s.Stored o { m with pageFrames := update m.pageFrames p b } k done := by
  refine ⟨S.mappings_eq, S.data_eq, fun j p' b' hj hb => ?_⟩
  have hne : p' ≠ p := by
    rintro rfl
    exact hp (mem_of_getElem? hj)
  show update m.pageFrames p b p' = _
  rw [update_of_ne hne]
  exact S.page_eq j p' b' hj hb

/-- Nothing changes when another command frame is written. -/
lemma update_frame {f : ℕ} (hf : f ≠ s.frame) (fr : CommandFrame α) :
    s.Stored o { m with commandFrames := update m.commandFrames f fr } k done := by
  have heq : update m.commandFrames f fr s.frame = m.commandFrames s.frame :=
    update_of_ne hf.symm _ _
  exact ⟨(congrArg CommandFrame.mappings heq).trans S.mappings_eq,
    (congrArg CommandFrame.data heq).trans S.data_eq, S.page_eq⟩

/-- The positions in shared memory do not matter. -/
lemma of_counters (next current : ℕ) : s.Stored o { m with next, current } k done :=
  ⟨S.mappings_eq, S.data_eq, S.page_eq⟩

/-- The client writes the next page. -/
lemma write_page (hnodup : s.pages.Nodup) (hp : s.pages[k]? = some p) :
    s.Stored o { m with
      pageFrames := update m.pageFrames p (o.page s.data s.contents k) } (k + 1) done := by
  refine ⟨S.mappings_eq, S.data_eq, fun j p' b hj hb => ?_⟩
  show update m.pageFrames p (o.page s.data s.contents k) p' = _
  by_cases hjk : j = k
  · subst hjk
    obtain rfl := mem_unique hp hj
    rw [update_self, if_pos (Nat.lt_succ_self j)]
  · have hne : p' ≠ p := by
      rintro rfl
      obtain ⟨hlt, -⟩ := List.getElem?_eq_some_iff.mp hj
      exact hjk ((getElem?_inj hlt hnodup).mp (hj.trans hp.symm))
    rw [update_of_ne hne, S.page_eq j p' b hj hb]
    exact if_congr (by omega) rfl rfl

/-- All pages have been written. -/
lemma of_le (hk : s.pages.length ≤ k) : s.Stored o m s.pages.length done := by
  refine ⟨S.mappings_eq, S.data_eq, fun j p b hj hb => ?_⟩
  have hlt := lt_of_getElem? hj
  rw [S.page_eq j p b hj hb, if_pos hlt, if_pos (hlt.trans_le hk)]

/-- The client writes the frame. -/
lemma write_frame :
    s.Stored o { m with
      commandFrames := update m.commandFrames s.frame
        { m.commandFrames s.frame with data := o.frame s.data s.contents } } k true := by
  have heq : update m.commandFrames s.frame
      { m.commandFrames s.frame with data := o.frame s.data s.contents } s.frame =
        { m.commandFrames s.frame with data := o.frame s.data s.contents } :=
    update_self _ _ _
  exact ⟨(congrArg CommandFrame.mappings heq).trans S.mappings_eq, congrArg CommandFrame.data heq,
    S.page_eq⟩

end

end Submission.Stored

/-! ## How far the client is -/

namespace ClientPc

/-- The pages of the request being executed that have been written. -/
@[simp] def written : ClientPc α β → ℕ
  | .writePages _ _ _ _ written => written
  | .writeFrame _ pages _ _ | .markProcessed _ pages => pages.length
  | _ => 0

/-- The frame of the request being executed has been written. -/
@[simp] def frameDone : ClientPc α β → Bool
  | .markProcessed .. => true
  | _ => false

/-- What the client has read of the request it is executing. -/
def Holds (s : Submission α β) : ClientPc α β → Prop
  | .idle => True
  | .readFrame frame => frame = s.frame
  | .readPages frame pages data contents =>
    frame = s.frame ∧ pages = s.pages ∧ data = s.data ∧ contents = s.contents.take contents.length
  | .writePages frame pages data contents _ | .writeFrame frame pages data contents =>
    frame = s.frame ∧ pages = s.pages ∧ data = s.data ∧ contents = s.contents
  | .markProcessed frame pages => frame = s.frame ∧ pages = s.pages

end ClientPc

/-- How many pages of the `i`-th request have been written. -/
def Client.pagesDone (c : Client α β) (H : History α β) (i : ℕ) (s : Submission α β) : ℕ :=
  if i < H.processed.length then s.pages.length
  else if i = H.processed.length then c.pc.written else 0

/-- The frame of the `i`-th request has been written. -/
def Client.frameDone (c : Client α β) (H : History α β) (i : ℕ) : Bool :=
  if i < H.processed.length then true
  else if i = H.processed.length then c.pc.frameDone else false

/-! ## All requests -/

/-- What the frames hold, and what both sides have read of them. -/
structure Contents (o : Observation α β) (m : Shared α β) (h : Host α β) (c : Client α β)
    (H : History α β) : Prop where
  stored : ∀ i (s : Submission α β), H.received ≤ i → H.submissions[i]? = some s →
    s.Stored o m (c.pagesDone H i s) (c.frameDone H i)
  processed_eq : H.processed =
    (H.submissions.take H.processed.length).map fun s => (s.frame, s.pages)
  client : ∀ s : Submission α β, H.submissions[H.processed.length]? = some s → c.pc.Holds s
  setup : ∀ queue request pages contents, h.pc = .setup queue request pages contents →
    ∀ (j p : ℕ) (b : β), pages[j]? = some p → contents[j]? = some b → m.pageFrames p = b
  updateNext : ∀ queue (s : Submission α β), h.pc = .updateNext queue s → s.Stored o m 0 false
  reading : ∀ queue fused (r : Reading α β), h.pc = .readPages queue fused r →
    ∃ s : Submission α β, H.submissions[H.received]? = some s ∧ r.frame = s.frame ∧
      r.pages = s.pages ∧ r.data = o.frame s.data s.contents ∧
      r.contents.length ≤ s.pages.length ∧
      r.contents = (List.range r.contents.length).map (o.page s.data s.contents)

section invariant

variable {l : Layout} {o : Observation α β} {m m' : Shared α β} {h h' : Host α β} {c : Client α β}
  {H : History α β} {e : Option (Event α β)}

namespace Contents

section

variable (C : Contents o m h c H)
include C

/-- The oldest request, whose frame the host has taken. -/
lemma mapped (P : Positions l m h c H) (A : Allocation l h H) {f : ℕ} (hf : h.pc.frame = some f) :
    ∃ s : Submission α β, H.submissions[H.received]? = some s ∧ f = s.frame ∧
      H.received < H.processed.length ∧ s.Stored o m s.pages.length true := by
  have hdequeued : h.pc.dequeued = 1 := by
    rcases hpc : h.pc <;> rw [hpc] at hf <;> first | rfl | nomatch hf
  have hreceived := P.received_le
  have hprocessed := P.processed_le
  have hlt : H.received < H.processed.length := by omega
  have hs : H.submissions[H.received]? = some (H.submissions.get ⟨H.received, by omega⟩) :=
    getElem?_eq_getElem _
  refine ⟨_, hs, ?_, hlt, ?_⟩
  · rw [P.frame_eq f hf, (A.placed _ _ hs).frame_eq]
  · have hstored := C.stored _ _ (le_refl _) hs
    rw [pagesDone, if_pos hlt, frameDone, if_pos hlt] at hstored
    exact hstored

/-- Moving on in the code, without writing or reading. -/
lemma move (hreserved : h'.pc.reserved = 0) (haccounted : h'.pc.accounted = 0) :
    Contents o m h' c H := by
  refine ⟨C.stored, C.processed_eq, C.client, ?_, ?_, ?_⟩
  · intro _ _ _ _ hpc
    rw [hpc] at hreserved
    cases hreserved
  · intro _ _ hpc
    rw [hpc] at hreserved
    cases hreserved
  · intro _ _ _ hpc
    rw [hpc] at haccounted
    cases haccounted

/-- The oldest request is received. -/
lemma received {H' : History α β} (hsubmissions : H'.submissions = H.submissions)
    (hprocessed : H'.processed = H.processed) (hreceived : H'.received = H.received + 1)
    (hreserved : h.pc.reserved = 0) (haccounted : h.pc.accounted = 0) : Contents o m h c H' := by
  obtain ⟨submissions, processed, received, batchStart, yields⟩ := H'
  obtain rfl : submissions = H.submissions := hsubmissions
  obtain rfl : processed = H.processed := hprocessed
  obtain rfl : received = H.received + 1 := hreceived
  have C' := C.move hreserved haccounted
  refine ⟨fun i s hr hi => C.stored i s ?_ hi, C.processed_eq, C.client, C'.setup, C'.updateNext, ?_⟩
  · exact (Nat.le_succ _).trans hr
  · intro _ _ _ hpc
    rw [hpc] at haccounted
    cases haccounted

variable {contents : List β} {pages : List ℕ} {queue : List (Request α β)} {request : Request α β}
  {c' : Client α β} {data : α}

/-- The host writes a page. -/
lemma allocate (A : Allocation l h H) (hpc : h.pc = .setup queue request pages contents)
    (hp : p = l.pageIndex (H.totalPages + pages.length)) (b : β)
    (hpc' : h'.pc = .setup queue request (pages ++ [p]) (contents ++ [b])) :
    Contents o { m with pageFrames := update m.pageFrames p b } h' c H := by
  obtain ⟨-, hpages, hlength, -⟩ := A.setup _ _ _ _ hpc
  have hpending : h.pc.pending = pages.length := by rw [hpc]; rfl
  have hnew : ∀ p' ∈ pages, p' ≠ p := by
    intro p' hp'
    rw [hpages] at hp'
    obtain ⟨j, hj, rfl⟩ := mem_consecutive.mp hp'
    have hle : H.pagesBefore H.received ≤ H.totalPages := pagesBefore_le_total _
    rw [hp]
    exact A.pageIndex_ne (by omega) (by omega) (by omega)
  obtain ⟨_, _, _, _, _, _, _⟩ := h'
  cases hpc'
  refine ⟨fun i s hr hi => ?_, C.processed_eq, C.client, ?_, nofun, nofun⟩
  · refine (C.stored i s hr hi).update_page ?_ b
    rw [hp]
    exact A.not_mem_pages hr hi hpending.ge
  · rintro _ _ _ _ ⟨⟩ j p' b' hj hb
    show update m.pageFrames p b p' = b'
    rcases Nat.lt_or_ge j pages.length with hlt | hge
    · rw [getElem?_append_left hlt] at hj
      rw [getElem?_append_left (hlength ▸ hlt)] at hb
      rw [update_of_ne (hnew p' (mem_of_getElem? hj))]
      exact C.setup _ _ _ _ hpc j p' b' hj hb
    · obtain rfl : j = pages.length := by
        have hlt := lt_of_getElem? hj
        rw [length_append, length_singleton] at hlt
        omega
      rw [getElem?_concat_length] at hj
      rw [← hlength, getElem?_concat_length] at hb
      obtain rfl := some.inj hj
      obtain rfl := some.inj hb
      exact update_self _ _ _

section

variable (P : Positions l m h c H)
include P

/-- The host writes a command frame. -/
lemma writeFrame (A : Allocation l h H)
    (hpc : h.pc = .setup queue request pages contents) (data : α) :
    Contents o
      { m with commandFrames := update m.commandFrames h.nextCommandFrame ⟨pages, data⟩ }
      { h with pc := .updateNext queue ⟨request, h.nextCommandFrame, pages, data, contents⟩ } c H := by
  refine ⟨fun i s hr hi => ?_, C.processed_eq, C.client, nofun, ?_, nofun⟩
  · exact (C.stored i s hr hi).update_frame (nextCommandFrame_ne P A hr hi) _
  · rintro _ _ ⟨⟩
    have hself : update m.commandFrames h.nextCommandFrame ⟨pages, data⟩
        h.nextCommandFrame = ⟨pages, data⟩ := update_self _ _ _
    refine ⟨congrArg CommandFrame.mappings hself, congrArg CommandFrame.data hself, ?_⟩
    intro j p b hj hb
    exact C.setup _ _ _ _ hpc j p b hj hb

/-- The host publishes a request. -/
lemma enqueue (hpc : h.pc = .updateNext queue s) (next : ℕ) (hreserved : h'.pc.reserved = 0)
    (haccounted : h'.pc.accounted = 0) :
    Contents o { m with next } h' c (H.record (.enqueued s)) := by
  have hprocessed := P.processed_le
  have C' := C.move hreserved haccounted
  -- when the client has caught up, it is not working on anything
  have hidle : H.processed.length = H.submissions.length → c.pc = .idle := by
    intro heq
    have htaken : c.pc.taken = 0 := by omega
    rcases hc : c.pc <;> rw [hc] at htaken <;> first | rfl | nomatch htaken
  refine ⟨?_, ?_, ?_, C'.setup, fun queue t ht => (C'.updateNext queue t ht).of_counters _ _, ?_⟩
  · intro i t hr hi
    have hi' : (H.submissions ++ [s])[i]? = some t := hi
    rcases Nat.lt_trichotomy i H.submissions.length with hlt | rfl | hgt
    · rw [getElem?_append_left hlt] at hi'
      exact (C.stored i t hr hi').of_counters next m.current
    · obtain rfl : s = t := by simpa using hi'
      have hstored := (C.updateNext _ _ hpc).of_counters next m.current
      have hge : ¬ H.submissions.length < (H.record (.enqueued s)).processed.length :=
        Nat.not_lt_of_le (Nat.le_of_add_right_le hprocessed)
      rw [pagesDone, frameDone, if_neg hge]
      split
      next heq => rw [hidle heq.symm]; exact hstored
      next => exact hstored
    · rw [getElem?_eq_none (by simp; omega)] at hi'
      cases hi'
  · show H.processed = ((H.submissions ++ [s]).take H.processed.length).map _
    rw [take_append_of_le_length (by omega)]
    exact C.processed_eq
  · intro t ht
    have ht' : (H.submissions ++ [s])[H.processed.length]? = some t := ht
    rcases Nat.lt_or_ge H.processed.length H.submissions.length with hlt | hge
    · rw [getElem?_append_left hlt] at ht'
      exact C.client t ht'
    · rw [hidle (by omega)]
      trivial
  · intro _ _ _ hpc'
    rw [hpc'] at haccounted
    cases haccounted

variable {frame : ℕ} {fused : Bool}

/-- The host starts to read a result. -/
lemma account (A : Allocation l h H)
    {entry : Request α β} (hpc : h.pc = .account queue fused entry frame)
    (hpc' : h'.pc = .readPages queue fused
      ⟨entry, frame, (m.commandFrames frame).mappings, (m.commandFrames frame).data, []⟩) :
    Contents o m h' c H := by
  obtain ⟨_, _, _, _, _, _, _⟩ := h'
  cases hpc'
  refine ⟨C.stored, C.processed_eq, C.client, nofun, nofun, ?_⟩
  rintro _ _ _ ⟨⟩
  obtain ⟨s, hs, rfl, -, hstored⟩ := C.mapped P A (show h.pc.frame = some frame by rw [hpc]; rfl)
  exact ⟨s, hs, rfl, hstored.mappings_eq, hstored.data_eq, Nat.zero_le _, rfl⟩

/-- The host reads a page of a result. -/
lemma readPage (A : Allocation l h H) {r : Reading α β} (hpc : h.pc = .readPages queue fused r)
    {index : ℕ} (hindex : r.pages[r.contents.length]? = some index) :
    Contents o m
      { h with
        pc := .readPages queue fused { r with contents := r.contents ++ [m.pageFrames index] } }
      c H := by
  refine ⟨C.stored, C.processed_eq, C.client, nofun, nofun, ?_⟩
  rintro _ _ _ ⟨⟩
  obtain ⟨s, hs, hframe, hpages, hdata, hle, hcontents⟩ := C.reading _ _ _ hpc
  have hreceived := P.received_le
  rw [hpc] at hreceived
  have hlt : H.received < H.processed.length := hreceived
  have hstored := C.stored _ _ (le_refl _) hs
  rw [pagesDone, if_pos hlt] at hstored
  rw [hpages] at hindex
  have hlen := lt_of_getElem? hindex
  have hlen' : r.contents.length < s.contents.length := (A.placed _ _ hs).length_contents ▸ hlen
  have hpage := hstored.page_eq _ _ _ hindex (getElem?_eq_getElem hlen')
  rw [if_pos hlen] at hpage
  refine ⟨s, hs, hframe, hpages, hdata, ?_, ?_⟩
  · rw [length_append]
    exact hlen
  · rw [length_append, length_singleton, range_succ, map_append, ← hcontents,
      hpage]
    rfl

lemma host_step (A : Allocation l h H) (hstep : HostStep l m h m' h' e) :
    Contents o m' h' c (H.after e) := by
  cases hstep with
  | start hpc =>
    have C' : Contents o m { h with
        pc := if h.numToDiscard > 0 then .makeRoom else .ready [] false } c H := by
      split <;> exact C.move rfl rfl
    exact { C' with }
  | roomMade hpc hq hnext =>
    rcases hnext with rfl | ⟨-, rfl⟩ <;> exact C.move rfl rfl
  | dequeueStale hpc hq | drop hpc | next hpc | dequeue hpc hq => exact C.move rfl rfl
  | discard hpc hlen hq hdiscard =>
    split <;> exact (C.move rfl rfl).received rfl rfl rfl rfl rfl
  | @filled queue _ hpc fused' =>
    rcases queue with _ | ⟨entry, queue⟩ <;> exact C.move rfl rfl
  | take hpc hroom request =>
    refine ⟨C.stored, C.processed_eq, C.client, ?_, nofun, nofun⟩
    rintro _ _ _ _ ⟨⟩ j p b hj
    cases hj
  | @allocate queue request pages contents hpc setupPage hsetup hroom hindex index hi =>
    have hpage := A.pageIndex_eq
    rw [← hi, hpc] at hpage
    have hfits : index % 2 ^ 16 = index := by
      rw [hpage]
      exact Nat.mod_eq_of_lt ((l.pageIndex_lt _).2.trans_le l.pages_le)
    refine C.allocate A hpc hpage _ ?_
    rw [hfits]
  | writeFrame hpc hsetup hlen hdata => exact C.writeFrame P A hpc _
  | enqueue hpc => exact C.enqueue P hpc _ rfl rfl
  | wait hpc hq =>
    exact C.move (by show h.pc.reserved = 0; rw [hpc]; rfl) (by show h.pc.accounted = 0; rw [hpc]; rfl)
  | account hpc hlen hq hdiscard => exact C.account P A hpc rfl
  | readPage hpc hindex hpage => exact C.readPage P A hpc hindex
  | discardLate hpc hlen hq hdiscard | yield hpc hend =>
    exact (C.move rfl rfl).received rfl rfl rfl rfl rfl

end

/-- The client goes on without writing. -/
lemma client_move
    (hwritten : c'.pc.written = c.pc.written) (hdone : c'.pc.frameDone = c.pc.frameDone)
    (hholds : ∀ s : Submission α β, H.submissions[H.processed.length]? = some s → c'.pc.Holds s) :
    Contents o m h c' H := by
  refine { C with stored := fun i s hr hi => ?_, client := hholds }
  have hstored := C.stored i s hr hi
  unfold pagesDone frameDone at hstored ⊢
  rw [hwritten, hdone]
  exact hstored

/-- The request that the client has taken. -/
lemma exists_taken (P : Positions l m h c H) (hbusy : c.pc.taken = 1) :
    ∃ s : Submission α β, H.submissions[H.processed.length]? = some s ∧
      H.received ≤ H.processed.length ∧ c.pc.Holds s ∧
      s.Stored o m c.pc.written c.pc.frameDone := by
  have hprocessed := P.processed_le
  have hreceived := P.received_le
  have hs : H.submissions[H.processed.length]? =
      some (H.submissions.get ⟨H.processed.length, by omega⟩) := getElem?_eq_getElem _
  have hstored := C.stored _ _ (by omega) hs
  rw [pagesDone, if_neg (lt_irrefl _), if_pos rfl, frameDone,
    if_neg (lt_irrefl _), if_pos rfl] at hstored
  exact ⟨_, hs, by omega, C.client _ hs, hstored⟩

/-- A write of the client to the request that it has taken. -/
lemma client_write (hs : H.submissions[H.processed.length]? = some s)
    {commandFrames : ℕ → CommandFrame α} {pageFrames : ℕ → β}
    (hself : s.Stored o { m with commandFrames, pageFrames } c'.pc.written c'.pc.frameDone)
    (hother : ∀ i (t : Submission α β), H.received ≤ i → i ≠ H.processed.length →
      H.submissions[i]? = some t → ∀ k done, t.Stored o m k done →
      t.Stored o { m with commandFrames, pageFrames } k done)
    (hsetup : ∀ queue request pages contents, h.pc = .setup queue request pages contents →
      ∀ p ∈ pages, pageFrames p = m.pageFrames p)
    (hupdate : ∀ queue (t : Submission α β), h.pc = .updateNext queue t →
      t.Stored o m 0 false → t.Stored o { m with commandFrames, pageFrames } 0 false)
    (hholds : c'.pc.Holds s) : Contents o { m with commandFrames, pageFrames } h c' H := by
  refine ⟨fun i t hr hi => ?_, C.processed_eq, fun t ht => ?_, ?_, ?_, C.reading⟩
  · by_cases heq : i = H.processed.length
    · subst heq
      obtain rfl := mem_unique hs hi
      rw [pagesDone, if_neg (lt_irrefl _), if_pos rfl, frameDone, if_neg (lt_irrefl _), if_pos rfl]
      exact hself
    · have hstored := hother i t hr heq hi _ _ (C.stored i t hr hi)
      unfold pagesDone frameDone at hstored ⊢
      rw [if_neg heq, if_neg heq] at hstored ⊢
      exact hstored
  · obtain rfl := mem_unique hs ht
    exact hholds
  · intro queue request pages contents hpc j p b hj hb
    show pageFrames p = b
    rw [hsetup _ _ _ _ hpc p (mem_of_getElem? hj)]
    exact C.setup _ _ _ _ hpc j p b hj hb
  · intro queue t hpc
    exact hupdate queue t hpc (C.updateNext queue t hpc)

/-- The client writes a page. -/
lemma client_writePage (P : Positions l m h c H) (A : Allocation l h H)
    {written index : ℕ} (hpc : c.pc = .writePages frame pages data contents written)
    (hindex : pages[written]? = some index) :
    Contents o
      { m with pageFrames := update m.pageFrames index (o.page data contents written) } h
      { c with pc := .writePages frame pages data contents (written + 1) } H := by
  obtain ⟨s, hs, hr, hholds, hstored⟩ := C.exists_taken P (by rw [hpc]; rfl)
  rw [hpc] at hholds hstored
  obtain ⟨rfl, rfl, rfl, rfl⟩ := hholds
  have hmem := mem_of_getElem? hindex
  -- the pages of the request that is being written are other ones
  have hnew : ∀ j < h.pc.pending, l.pageIndex (H.totalPages + j) ≠ index := by
    rintro j hj rfl
    exact A.not_mem_pages hr hs hj.le hmem
  refine C.client_write hs (hstored.write_page (A.nodup_pages hr hs) hindex) ?_ ?_ ?_
    ⟨rfl, rfl, rfl, rfl⟩
  · intro i t hri hne hi k done ht
    exact ht.update_page (A.disjoint_pages hr hs hri hi hne.symm hmem) _
  · intro queue request pages' contents' hsetup p hp
    obtain ⟨-, hpages, -, -⟩ := A.setup _ _ _ _ hsetup
    rw [hpages] at hp
    obtain ⟨j, hj, rfl⟩ := mem_consecutive.mp hp
    exact update_of_ne (hnew j (by rw [hsetup]; exact hj)) _ _
  · intro queue t hupdate ht
    refine ht.update_page (fun hp => ?_) _
    rw [(A.updateNext _ _ hupdate).pages_eq] at hp
    obtain ⟨j, hj, heq⟩ := mem_consecutive.mp hp
    exact hnew j (by rw [hupdate]; exact hj) heq.symm

/-- The client writes the command frame. -/
lemma client_writeFrame (P : Positions l m h c H) (A : Allocation l h H)
    (hpc : c.pc = .writeFrame frame pages data contents) :
    Contents o
      { m with
        commandFrames := update m.commandFrames frame
          { m.commandFrames frame with data := o.frame data contents } } h
      { c with pc := .markProcessed frame pages } H := by
  obtain ⟨s, hs, hr, hholds, hstored⟩ := C.exists_taken P (by rw [hpc]; rfl)
  rw [hpc] at hholds hstored
  obtain ⟨rfl, rfl, rfl, rfl⟩ := hholds
  refine C.client_write hs hstored.write_frame ?_ (fun _ _ _ _ _ _ _ => rfl) ?_ ⟨rfl, rfl⟩
  · intro i t hri hne hi k done ht
    exact ht.update_frame (frame_ne P A hr hs hri hi hne.symm) _
  · intro queue t hupdate ht
    refine ht.update_frame ?_ _
    rw [(A.updateNext _ _ hupdate).frame_eq, ← P.nextCommandFrame_eq]
    exact (nextCommandFrame_ne P A hr hs).symm

/-- The client publishes that it has processed a request. -/
lemma client_publish (P : Positions l m h c H)
    (hpc : c.pc = .markProcessed frame pages) (current : ℕ) :
    Contents o { m with current } h { c with pc := .idle } (H.record (.processed frame pages)) := by
  obtain ⟨s, hs, hr, hholds, hstored⟩ := C.exists_taken P (by rw [hpc]; rfl)
  rw [hpc] at hholds hstored
  obtain ⟨rfl, rfl⟩ := hholds
  have hlength : (H.processed ++ [(s.frame, s.pages)]).length = H.processed.length + 1 := by simp
  refine ⟨fun i t hri hi => ?_, ?_, fun _ _ => trivial, C.setup, fun queue t ht =>
    (C.updateNext queue t ht).of_counters _ _, C.reading⟩
  · have ht := (C.stored i t hri hi).of_counters m.next current
    unfold pagesDone frameDone at ht ⊢
    rw [show (H.record (.processed s.frame s.pages)).processed.length = H.processed.length + 1
      from hlength]
    rcases Nat.lt_trichotomy i H.processed.length with hlt | rfl | hgt
    · rw [if_pos hlt, if_pos hlt] at ht
      rw [if_pos (by omega), if_pos (by omega)]
      exact ht
    · obtain rfl := mem_unique hs hi
      rw [if_pos (Nat.lt_succ_self _), if_pos (Nat.lt_succ_self _)]
      exact hstored.of_counters _ _
    · rw [if_neg (by omega), if_neg (by omega), if_neg (by omega), if_neg (by omega)] at ht
      have hge : ¬ i < H.processed.length + 1 := Nat.not_lt_of_le hgt
      simp only [if_neg hge, ClientPc.written, ClientPc.frameDone, ite_self]
      exact ht
  · show H.processed ++ [(s.frame, s.pages)] =
      (H.submissions.take (H.processed ++ [(s.frame, s.pages)]).length).map _
    rw [hlength, take_add_one, map_append, ← C.processed_eq, hs]
    rfl

end

end Contents

end invariant

end LibLisa.Observer
