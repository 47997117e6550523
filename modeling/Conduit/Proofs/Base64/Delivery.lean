import Conduit.Proofs.Base64.Steps
import Conduit.Proofs.Delivery

/-!
# What a Base64 sink will have delivered

The bytes to come are encoded behind those that are pending, whatever calls they come in: as a whole, or in the segments
that the writes make of them.
-/

namespace Conduit

namespace Base64Sink

open Base64 DeliveringSink

variable {σ : Type} [ByteSink σ] [DeliveringSink σ]

/-- The segments in which a string may be encoded: any if each write is a segment, else only the whole. -/
def Segments (segmented : Bool) (x : Bytes) (segments : List Bytes) : Prop :=
  if segmented then segments.flatten = x else segments = [x]

/-- What is unsent is followed by the text of segments that begin with the pending bytes. -/
def Outlook (s : Base64Sink σ) (y t : Bytes) : Prop :=
  ∃ segments, Segments s.segmented (s.pending ++ y) segments ∧
    MayDeliver s.inner (s.unsent.toList ++ segments.flatMap s.engine.encode) t

/-- Nothing in the way of writing. -/
def Usable (s : Base64Sink σ) : Prop := s.closed = false ∧ IsOpen s.inner

variable {s : Base64Sink σ} {host : Host} {y t : Bytes}

theorem usable_forward (h : s.Usable) (host : Host) : (s.forward host).endpoint.Usable := by
  rw [forward_eq]
  exact ⟨h.1, isOpen_drain _ _ h.2⟩

theorem outlook_forward (ho : s.Usable) (host : Host) (h : (s.forward host).endpoint.Outlook y t) :
    s.Outlook y t := by
  rw [forward_eq] at h
  obtain ⟨segments, hs, hd⟩ := h
  exact ⟨segments, hs, mayDeliver_drain _ _ ho.2 hd⟩

theorem usable_accept (h : s.Usable) (data : Bytes) : (s.accept data).2.Usable := by
  obtain ⟨unsent, ha, -⟩ := accept_eq s data
  rw [ha]
  exact h

theorem outlook_accept {data : Bytes} (h : (s.accept data).2.Outlook y t) : s.Outlook (data ++ y) t := by
  obtain ⟨unsent, ha, hu⟩ := accept_eq s data
  obtain ⟨segments, hs, hd⟩ := h
  rw [ha] at hs hd
  simp only [hu] at hs hd
  cases hm : s.segmented with
  | true =>
    -- the pending bytes and the new ones become a segment
    simp only [hm, Segments, if_true, List.nil_append] at hs hd
    refine ⟨(s.pending ++ data) :: segments, by simp [Segments, hm, hs], ?_⟩
    rwa [List.flatMap_cons, ← List.append_assoc]
  | false =>
    simp only [hm, Segments, if_false, Bool.false_eq_true] at hs hd
    subst hs
    refine ⟨[s.pending ++ (data ++ y)], by simp [Segments, hm], ?_⟩
    rw [List.flatMap_singleton, List.append_assoc, s.engine.encode_wholeGroups] at hd
    rwa [List.flatMap_singleton, ← List.append_assoc s.pending]

theorem usable_emitTail (h : s.Usable) (host : Host) : (s.emitTail host).endpoint.Usable := by
  have hf := usable_forward h host
  rcases emitTail_cases s host with ⟨he, -⟩ | ⟨-, unsent, -, he⟩
  · rw [he]
    exact hf
  · rw [he]
    apply usable_forward
    exact hf

theorem outlook_emitTail (ho : s.Usable) (host : Host) (h : (s.emitTail host).endpoint.Outlook [] t) :
    s.Outlook [] t := by
  have hf := usable_forward ho host
  rcases emitTail_cases s host with ⟨he, -⟩ | ⟨-, unsent, hu, he⟩
  · rw [he] at h
    exact outlook_forward ho _ h
  · rw [he] at h
    have hf : { (s.forward host).endpoint with pending := [], unsent }.Usable := hf
    obtain ⟨segments, hs, hd⟩ := outlook_forward hf _ h
    simp only [segmented_forward, Segments, List.append_nil] at hs
    simp only [hu, engine_forward] at hd
    refine outlook_forward ho host ?_
    unfold Outlook
    rw [segmented_forward, pending_forward, engine_forward, List.append_nil]
    cases hm : s.segmented with
    | true =>
      -- the tail is a segment of its own
      have hs : segments.flatten = [] := by simpa only [hm, if_true] using hs
      refine ⟨s.pending :: segments, by rw [Segments, if_pos rfl, List.flatten_cons, hs, List.append_nil], ?_⟩
      rwa [List.flatMap_cons, ← List.append_assoc]
    | false =>
      -- the tail is the last part of the only segment
      have hs : segments = [[]] := by simpa [hm] using hs
      refine ⟨[s.pending], by simp [Segments], ?_⟩
      simpa [hs, Engine.encode] using hd

private theorem outlook_of_settled (hu : s.unsent.toList = []) (hp : s.pending = []) (inner : σ) (closed : Bool) :
    { s with inner, closed }.Outlook [] t ↔ MayDeliver inner [] t := by
  -- text of no bytes is empty, in whatever segments they come
  have hnil {segments : List Bytes} (hs : Segments s.segmented [] segments) :
      segments.flatMap s.engine.encode = [] := by
    rw [List.flatMap_eq_nil_iff]
    intro x hx
    cases hm : s.segmented with
    | true =>
      rw [hm, Segments, if_pos rfl, List.flatten_eq_nil_iff] at hs
      rw [hs x hx, Engine.encode]
    | false =>
      obtain rfl : segments = [[]] := by simpa [hm, Segments] using hs
      rw [List.mem_singleton.1 hx, Engine.encode]
  constructor
  · rintro ⟨segments, hs, hd⟩
    simp only [hp, List.append_nil] at hs
    simpa only [hu, hnil hs, List.append_nil] using hd
  · intro hd
    refine ⟨[[]], ?_, ?_⟩
    · simp [hp, Segments]
    · simpa [hu, Engine.encode] using hd

private theorem usable_write (h : s.Usable) (n : Nat) (b : Buffer) (host : Host) : (s.write n b host).sink.Usable := by
  have hf := usable_forward h host
  by_cases hr : checkWrite b.length n = .ok () ∧ s.Ready host
  · rw [write_of_ready hr.1 hr.2]
    exact usable_forward (usable_accept hf _) _
  · obtain ⟨-, -, hs | hs⟩ := write_of_not_ready hr
    · rwa [hs]
    · rwa [hs]

private theorem outlook_write {n : Nat} {b : Buffer} (ho : s.Usable)
    (h : (s.write n b host).sink.Outlook ((s.write n b host).buffer.toList ++ y) t) : s.Outlook (b.toList ++ y) t := by
  have hf := usable_forward ho host
  by_cases hr : checkWrite b.length n = .ok () ∧ s.Ready host
  · rw [write_of_ready hr.1 hr.2] at h
    have hcut : b.toList ++ y = b.take n ++ (b.toList.drop n ++ y) := by
      rw [← List.append_assoc, Buffer.take, List.take_append_drop]
    rw [hcut]
    rw [Buffer.toList_drop] at h
    exact outlook_forward ho host (outlook_accept (outlook_forward (usable_accept hf _) _ h))
  · obtain ⟨-, hb, hs | hs⟩ := write_of_not_ready hr
    · rwa [hb, hs] at h
    · rw [hb, hs] at h
      exact outlook_forward ho _ h

private theorem usable_close (h : s.Usable) (hr : retryable (s.close host).result) :
    (s.close host).endpoint.Usable := by
  rcases close_cases h.1 (.inr hr) with ⟨-, hc⟩ | ⟨o, rfl, -, hc⟩
  · rw [hc]
    exact usable_emitTail h host
  · rw [hc] at hr ⊢
    exact ⟨by simpa using hr, isOpen_close _ (usable_emitTail h host).2 hr⟩

private theorem outlook_close (ho : s.Usable) (hr : (s.close host).result = .ok () ∨ retryable (s.close host).result)
    (h : (s.close host).endpoint.Outlook [] t) : s.Outlook [] t := by
  refine outlook_emitTail ho host ?_
  rcases close_cases ho.1 hr with ⟨-, hc⟩ | ⟨o, rfl, ht, hc⟩
  · rwa [hc] at h
  · rw [hc] at h hr
    obtain ⟨hu, hp⟩ := settled_of_emitTail_ok ht
    have hd := (outlook_of_settled hu hp _ _).1 h
    exact (outlook_of_settled hu hp _ _).2 (mayDeliver_close _ (usable_emitTail ho host).2 hr hd)

private theorem outlook_delivered (ho : s.Usable) (h : (s.close host).result = .ok ()) :
    (s.close host).endpoint.Outlook [] (delivered (s.close host).endpoint.inner) := by
  rcases close_cases ho.1 (.inl h) with ⟨hr, hc⟩ | ⟨o, rfl, ht, hc⟩
  · rw [← hc, h] at hr
    cases hr
  · rw [hc] at h ⊢
    obtain ⟨hu, hp⟩ := settled_of_emitTail_ok ht
    exact (outlook_of_settled hu hp _ _).2 (mayDeliver_delivered _ (usable_emitTail ho host).2 h)

instance : DeliveringSink (Base64Sink σ) where
  delivered s := delivered s.inner
  IsOpen := Usable
  MayDeliver := Outlook
  isOpen_write n b host h := usable_write h n b host
  mayDeliver_write _ _ _ := outlook_write
  isOpen_close _ := usable_close
  mayDeliver_close _ := outlook_close
  mayDeliver_delivered _ := outlook_delivered

end Base64Sink

end Conduit
