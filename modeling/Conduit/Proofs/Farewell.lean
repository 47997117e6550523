import Conduit.Proofs.Deadlines
import Conduit.Proofs.Inert
import Conduit.Proofs.Keeping

/-!
# Farewells

When a channel or file endpoint gives up its handle it reports that, its farewell.  A call on a stack adds a farewell to
the journal exactly if it gives up the handle of the innermost endpoint, and that is a close (`PartsOnce`).  So the
farewells that a run of calls adds are none as long as the handle is held and one when it is gone (`PartsOnce.run`).

`SourceCloses` and `SinkCloses` say so of all stacks over an endpoint, and that the stack is inert once it is closed,
whatever calls come later.  Both hold over channels and files (`closes_once`).  Closing a source also closes what it
wraps, so the first close of a stack of sources gives up the handle.  No close of a stack of sinks need do that: a sink
that cannot end its own stream is closed even if closing what it wraps would have to be repeated.
-/

namespace Conduit

/-! ### Farewells -/

/-- What an entry of a journal tells of the end of a channel or file endpoint. -/
def Entry.farewell? : Entry → Option Event
  | .event (.channelClosed direction) => some (.channelClosed direction)
  | .event (.fileClosed position) => some (.fileClosed position)
  | _ => none

/-- The farewells in a journal, the first in front. -/
def farewells (journal : List Entry) : List Event := (journal.filterMap Entry.farewell?).reverse

theorem farewells_cons (entry : Entry) (journal : List Entry) :
    farewells (entry :: journal) = farewells journal ++ entry.farewell?.toList := by
  cases h : entry.farewell? with
  | none => simp [farewells, h]
  | some e => simp [farewells, h]

theorem LayerStep.farewells {host host' : Host} (h : LayerStep host host') :
    farewells host'.journal = Conduit.farewells host.journal := by
  cases h with
  | readClock => rfl
  | withinDeadline => exact (farewells_cons ..).trans (List.append_nil _)
  | deadlineReached => exact (farewells_cons ..).trans (List.append_nil _)
  | base64Tail => exact (farewells_cons ..).trans (List.append_nil _)
  | malformedBase64 => exact (farewells_cons ..).trans (List.append_nil _)
  | cipherFinalized => exact (farewells_cons ..).trans (List.append_nil _)

/-- A source with a handle of which `farewell` tells once it is gone: reads keep the handle, a close gives it up and
reports that, and without it the source is inert. -/
structure HandleSource (ℓ : Type) [ByteSource ℓ] (farewell : ℓ → Option Event) : Prop where
  hold {s : ℓ} (h : farewell s = none) (n : Nat) (b : Buffer) (host : Host) :
    farewell (ByteSource.read s n b host).source = none ∧
      farewells (ByteSource.read s n b host).host.journal = farewells host.journal
  release {s : ℓ} (h : farewell s = none) (host : Host) : ∃ e, farewell (ByteSource.close s host).endpoint = some e ∧
    farewells (ByteSource.close s host).host.journal = farewells host.journal ++ [e]
  inert {s : ℓ} (h : farewell s ≠ none) : InertSource maxRequestLength s

/-- A sink with a handle of which `farewell` tells once it is gone: writes and flushes keep the handle, a close gives it
up and reports that, and without it the sink is inert. -/
structure HandleSink (ℓ : Type) [ByteSink ℓ] (farewell : ℓ → Option Event) : Prop where
  hold {s : ℓ} (h : farewell s = none) (n : Nat) (b : Buffer) (host : Host) :
    farewell (ByteSink.write s n b host).sink = none ∧
      farewells (ByteSink.write s n b host).host.journal = farewells host.journal
  holdFlush {s : ℓ} (h : farewell s = none) (host : Host) :
    farewell (ByteSink.flush s host).endpoint = none ∧
      farewells (ByteSink.flush s host).host.journal = farewells host.journal
  release {s : ℓ} (h : farewell s = none) (host : Host) : ∃ e, farewell (ByteSink.close s host).endpoint = some e ∧
    farewells (ByteSink.close s host).host.journal = farewells host.journal ++ [e]
  inert {s : ℓ} (h : farewell s ≠ none) : InertSink s

section

variable {ℓ : Type} {farewell : ℓ → Option Event}

theorem HandleSource.inert_close [ByteSource ℓ] (h : HandleSource ℓ farewell) (s : ℓ) (host : Host) :
    InertSource maxRequestLength (ByteSource.close s host).endpoint := by
  by_cases hn : farewell s = none
  · obtain ⟨e, he, -⟩ := h.release hn host
    exact h.inert (by simp [he])
  · rw [(h.inert hn).close]
    exact h.inert hn

theorem HandleSink.inert_close [ByteSink ℓ] (h : HandleSink ℓ farewell) (s : ℓ) (host : Host) :
    InertSink (ByteSink.close s host).endpoint := by
  by_cases hn : farewell s = none
  · obtain ⟨e, he, -⟩ := h.release hn host
    exact h.inert (by simp [he])
  · rw [(h.inert hn).close]
    exact h.inert hn

/-- The handle is what it was when `a` was there and the farewells were `told`; without a handle `a` is what it was. -/
private def Still (farewell : ℓ → Option Event) (a : ℓ) (told : List Event) (s : ℓ) (host : Host) : Prop :=
  farewell s = farewell a ∧ farewells host.journal = told ∧ (farewell a ≠ none → s = a)

/-- Since the farewells were `told`, there has been one if the handle is gone. -/
private def Parted (farewell : ℓ → Option Event) (told : List Event) (s : ℓ) (host : Host) : Prop :=
  farewells host.journal = told ++ (farewell s).toList

variable {a s s' : ℓ} {told : List Event} {host host' : Host}

private theorem Still.refl (farewell : ℓ → Option Event) (s : ℓ) (host : Host) :
    Still farewell s (farewells host.journal) s host := ⟨rfl, rfl, fun _ => rfl⟩

private theorem Parted.refl (hs : farewell s = none) (host : Host) :
    Parted farewell (farewells host.journal) s host := by
  rw [Parted, hs, Option.toList_none, List.append_nil]

private theorem Still.steps : KeptBySteps (Still farewell a told) := by
  rintro s host host' hstep ⟨hf, ht, hs⟩
  exact ⟨hf, hstep.farewells.trans ht, hs⟩

private theorem Parted.steps : KeptBySteps (Parted farewell told) := by
  intro s host host' hstep h
  exact hstep.farewells.trans h

/-- A call that keeps the handle, if it is there, and else does nothing. -/
private theorem Still.call (h : Still farewell a told s host)
    (hhold : farewell s = none → farewell s' = none ∧ farewells host'.journal = farewells host.journal)
    (hinert : farewell s ≠ none → s' = s ∧ host' = host) : Still farewell a told s' host' := by
  obtain ⟨hf, ht, hs⟩ := h
  by_cases hn : farewell s = none
  · obtain ⟨hn', ht'⟩ := hhold hn
    refine ⟨hn'.trans (hn.symm.trans hf), ht'.trans ht, ?_⟩
    intro ha
    exact absurd (hf.symm.trans hn) ha
  · obtain ⟨rfl, rfl⟩ := hinert hn
    exact ⟨hf, ht, hs⟩

/-- A call that reports it if it gives up the handle, and without a handle does nothing. -/
private theorem Parted.call (h : Parted farewell told s host)
    (hadds : farewell s = none → farewells host'.journal = farewells host.journal ++ (farewell s').toList)
    (hinert : farewell s ≠ none → s' = s ∧ host' = host) : Parted farewell told s' host' := by
  by_cases hn : farewell s = none
  · rw [Parted, hadds hn, h, hn, Option.toList_none, List.append_nil]
  · obtain ⟨rfl, rfl⟩ := hinert hn
    exact h

private theorem Parted.hold (h : Parted farewell told s host)
    (hhold : farewell s = none → farewell s' = none ∧ farewells host'.journal = farewells host.journal)
    (hinert : farewell s ≠ none → s' = s ∧ host' = host) : Parted farewell told s' host' := by
  refine h.call (fun hn => ?_) hinert
  rw [(hhold hn).1, (hhold hn).2, Option.toList_none, List.append_nil]

private theorem Parted.release (h : Parted farewell told s host)
    (hrelease : farewell s = none → ∃ e, farewell s' = some e ∧
      farewells host'.journal = farewells host.journal ++ [e])
    (hinert : farewell s ≠ none → s' = s ∧ host' = host) : Parted farewell told s' host' := by
  refine h.call (fun hn => ?_) hinert
  obtain ⟨e, he, ht⟩ := hrelease hn
  rw [he, ht, Option.toList_some]

end

/-! ### Runs -/

section

variable {σ ℓ γ : Type} (step : γ → σ → Host → σ × Host)

/-- The farewells that a call adds to the journal that it finds. -/
def partings (call : γ) (s : σ) (host : Host) : List Event :=
  (farewells (step call s host).2.journal).drop (farewells host.journal).length

/-- A run of calls, and the farewells that they add; each call finds the host in a state of its own. -/
def runPartings : List (γ × Host) → σ → σ × List Event
  | [], s => (s, [])
  | (call, host) :: calls, s =>
    let rest := runPartings calls (step call s host).1
    (rest.1, partings step call s host ++ rest.2)

/-- A call adds a farewell exactly if it gives up the handle, and that is a close; once the handle is gone, what had it
does not change any more. -/
structure PartsOnce (close : γ) (leaf : σ → ℓ) (farewell : ℓ → Option Event) : Prop where
  adds (call : γ) (s : σ) (host : Host) : farewells (step call s host).2.journal = farewells host.journal ++
    if farewell (leaf s) = none then (farewell (leaf (step call s host).1)).toList else []
  hold {call : γ} (hc : call ≠ close) (s : σ) (host : Host) : farewell (leaf (step call s host).1) = farewell (leaf s)
  gone {s : σ} (hs : farewell (leaf s) ≠ none) (call : γ) (host : Host) : leaf (step call s host).1 = leaf s

variable {step} {close : γ} {leaf : σ → ℓ} {farewell : ℓ → Option Event}

/-- It is enough that a call leaves everything still if it is no close or there is no handle, and that a close that
finds a handle reports its end. -/
private theorem PartsOnce.of_still
    (hstill : ∀ call s host, call ≠ close ∨ farewell (leaf s) ≠ none →
      Still farewell (leaf s) (farewells host.journal) (leaf (step call s host).1) (step call s host).2)
    (hparted : ∀ s host, farewell (leaf s) = none →
      Parted farewell (farewells host.journal) (leaf (step close s host).1) (step close s host).2) :
    PartsOnce step close leaf farewell := by
  constructor
  · intro call s host
    by_cases hn : farewell (leaf s) = none
    · rw [if_pos hn]
      by_cases hc : call = close
      · subst hc
        exact hparted s host hn
      · obtain ⟨hf, ht, -⟩ := hstill call s host (.inl hc)
        rw [hf, hn, Option.toList_none, List.append_nil]
        exact ht
    · rw [if_neg hn, List.append_nil]
      exact (hstill call s host (.inr hn)).2.1
  · intro call hc s host
    exact (hstill call s host (.inl hc)).1
  · intro s hs call host
    exact (hstill call s host (.inr hs)).2.2 hs

theorem PartsOnce.partings (h : PartsOnce step close leaf farewell) (call : γ) (s : σ) (host : Host) :
    partings step call s host =
      if farewell (leaf s) = none then (farewell (leaf (step call s host).1)).toList else [] := by
  rw [Conduit.partings, h.adds, List.drop_left]

/-- A run adds no farewell as long as the handle is held, and one, that of the handle, once it is gone. -/
theorem PartsOnce.run (h : PartsOnce step close leaf farewell) (calls : List (γ × Host)) (s : σ) :
    (farewell (leaf s) ≠ none → leaf (runPartings step calls s).1 = leaf s) ∧
      (runPartings step calls s).2 =
        if farewell (leaf s) = none then (farewell (leaf (runPartings step calls s).1)).toList else [] := by
  induction calls generalizing s with
  | nil =>
    refine ⟨fun _ => rfl, ?_⟩
    by_cases hs : farewell (leaf s) = none
    · simp [runPartings, hs]
    · simp [runPartings, hs]
  | cons c calls ih =>
    obtain ⟨call, host⟩ := c
    obtain ⟨hgone, hadds⟩ := ih (step call s host).1
    simp only [runPartings, h.partings, hadds]
    by_cases hs : farewell (leaf s) = none
    · by_cases hs' : farewell (leaf (step call s host).1) = none
      · simp [hs, hs']
      · -- the handle goes here, and no call after it adds anything
        simp [hs, hs', hgone hs']
    · have hleaf : leaf (step call s host).1 = leaf s := h.gone hs call host
      rw [hleaf] at hgone ⊢
      simp [hs, hgone hs]

/-- Calls that do nothing add nothing. -/
theorem runPartings_of_idle {calls : List (γ × Host)} {s : σ} (h : ∀ c ∈ calls, step c.1 s c.2 = (s, c.2)) :
    runPartings step calls s = (s, []) := by
  induction calls with
  | nil => rfl
  | cons c calls ih =>
    obtain ⟨call, host⟩ := c
    have hc : step call s host = (s, host) := h _ List.mem_cons_self
    have hrest := ih fun c hmem => h c (List.mem_cons_of_mem _ hmem)
    simp only [runPartings, Conduit.partings, hc, hrest, List.drop_length, List.append_nil]

end

/-! ### Stacks of sources -/

/-- A call on a source. -/
inductive SourceCall where
  | read (n : Nat) (b : Buffer)
  | close

/-- What a call makes of a source and the host. -/
def SourceCall.perform {σ : Type} [ByteSource σ] (call : SourceCall) (s : σ) (host : Host) : σ × Host :=
  match call with
  | .read n b => ((ByteSource.read s n b host).source, (ByteSource.read s n b host).host)
  | .close => ((ByteSource.close s host).endpoint, (ByteSource.close s host).host)

theorem InertSource.perform {σ : Type} [ByteSource σ] {bound : Nat} {s : σ} (h : InertSource bound s)
    (call : SourceCall) (host : Host) : call.perform s host = (s, host) := by
  cases call with
  | read n b =>
    obtain ⟨e, hr, -⟩ := h.read n b host
    simp only [SourceCall.perform, hr]
  | close => simp only [SourceCall.perform, h.close]

private theorem Base64Source.inner_close {σ : Type} [ByteSource σ] {s : Base64Source σ} (h : s.closed = false)
    (host : Host) : (s.close host).endpoint.inner = (ByteSource.close s.inner host).endpoint := by
  rw [Base64Source.close, if_neg (by simp [h])]

private theorem CipherSource.inner_close {κ σ : Type} [ByteSource σ] {s : CipherSource κ σ} (h : s.closed = false)
    (host : Host) : (s.close host).endpoint.inner = (ByteSource.close s.inner host).endpoint := by
  rw [CipherSource.close, if_neg (by simp [h])]

namespace SourceOver

variable {κ ℓ : Type}

/-- No layer is closed. -/
def Unclosed : (layers : List Layer) → SourceOver κ ℓ layers → Prop
  | [], _ => True
  | .base64 :: layers, (s : Base64Source (SourceOver κ ℓ layers)) => s.closed = false ∧ Unclosed layers s.inner
  | .cipher :: layers, (s : CipherSource κ (SourceOver κ ℓ layers)) => s.closed = false ∧ Unclosed layers s.inner

variable [ByteCipher κ] [ByteSource ℓ]

/-- Reads close no layer. -/
private theorem kept_unclosed (layers : List Layer) :
    KeptByReads fun (s : SourceOver κ ℓ layers) (_ : Host) => Unclosed layers s := by
  refine ⟨fun s host host' _ hs => hs, ?_⟩
  induction layers with
  | nil => exact fun s n b host hs => hs
  | cons layer layers ih =>
    have hinner : KeptByReads fun (s : SourceOver κ ℓ layers) (_ : Host) => Unclosed layers s :=
      ⟨fun s host host' _ hs => hs, ih⟩
    cases layer with
    | base64 =>
      rintro s n b host ⟨ho, hs⟩
      exact ⟨(Base64Source.closed_read (σ := SourceOver κ ℓ layers) s n b host).trans ho,
        (Base64Source.kept hinner).read s n b host hs⟩
    | cipher =>
      rintro s n b host ⟨ho, hs⟩
      exact ⟨(CipherSource.closed_read (κ := κ) (σ := SourceOver κ ℓ layers) s n b host).trans ho,
        (CipherSource.kept hinner).read s n b host hs⟩

/-- A close of a stack of which no layer is closed closes the innermost source. -/
private theorem leaf_close_of_unclosed {layers : List Layer} {s : SourceOver κ ℓ layers} (hs : Unclosed layers s)
    (host : Host) : leaf layers (ByteSource.close s host).endpoint =
      (ByteSource.close (leaf layers s) host).endpoint := by
  induction layers with
  | nil => rfl
  | cons layer layers ih =>
    cases layer with
    | base64 =>
      obtain ⟨ho, hs⟩ := hs
      have hclose := Base64Source.inner_close (σ := SourceOver κ ℓ layers) ho host
      exact (congrArg (leaf layers) hclose).trans (ih hs)
    | cipher =>
      obtain ⟨ho, hs⟩ := hs
      have hclose := CipherSource.inner_close (κ := κ) (σ := SourceOver κ ℓ layers) ho host
      exact (congrArg (leaf layers) hclose).trans (ih hs)

end SourceOver

/-- Closing a stack of sources.  After a close, however it ended, the stack is inert whatever calls come later; and
whatever calls are made before, the farewell of the innermost source is reported once, by the close that gives up its
handle.  If no layer is closed at first, that is the first close there is. -/
structure SourceCloses (κ : Type) {ℓ : Type} [ByteCipher κ] [ByteSource ℓ] (farewell : ℓ → Option Event)
    (layers : List Layer) : Prop where
  inert (s : SourceOver κ ℓ layers) (host : Host) (later : List (SourceCall × Host)) :
    runPartings SourceCall.perform later (ByteSource.close s host).endpoint = ((ByteSource.close s host).endpoint, []) ∧
      InertSource (SourceOver.longest layers) (ByteSource.close s host).endpoint
  parts : PartsOnce SourceCall.perform .close (SourceOver.leaf (κ := κ) layers) farewell
  run (calls : List (SourceCall × Host)) (s : SourceOver κ ℓ layers) (hs : farewell (SourceOver.leaf layers s) = none) :
    (runPartings SourceCall.perform calls s).2 =
      (farewell (SourceOver.leaf layers (runPartings SourceCall.perform calls s).1)).toList
  releases (calls : List (SourceCall × Host)) (s : SourceOver κ ℓ layers) (ho : SourceOver.Unclosed layers s)
    (hs : farewell (SourceOver.leaf layers s) = none) :
    farewell (SourceOver.leaf layers (runPartings SourceCall.perform calls s).1) ≠ none ↔
      ∃ host, (.close, host) ∈ calls

namespace HandleSource

variable {κ ℓ : Type} [ByteCipher κ] [ByteSource ℓ] {farewell : ℓ → Option Event}

private theorem kept_still (h : HandleSource ℓ farewell) (a : ℓ) (told : List Event) :
    KeptByReads (Still farewell a told) where
  steps := Still.steps
  read s n b host hs := by
    refine hs.call (fun hn => h.hold hn n b host) (fun hn => ?_)
    obtain ⟨e, hr, -⟩ := (h.inert hn).read n b host
    rw [hr]
    exact ⟨rfl, rfl⟩

private theorem partsOnce (h : HandleSource ℓ farewell) (layers : List Layer) :
    PartsOnce SourceCall.perform .close (SourceOver.leaf (κ := κ) layers) farewell := by
  have hidle {s : ℓ} (hn : farewell s ≠ none) (host : Host) : (ByteSource.close s host).endpoint = s ∧
      (ByteSource.close s host).host = host := by
    rw [(h.inert hn).close]
    exact ⟨rfl, rfl⟩
  apply PartsOnce.of_still
  · intro call s host hc
    have hs := Still.refl farewell (SourceOver.leaf layers s) host
    cases call with
    | read n b => exact (SourceOver.kept (kept_still h _ _) layers).read s n b host hs
    | close =>
      have hn : farewell (SourceOver.leaf layers s) ≠ none := hc.resolve_left (fun hne => hne rfl)
      refine SourceOver.kept_close (P := Still farewell _ _) (fun s' host' hs' => ?_) layers s host hs
      exact hs'.call (fun hn' => absurd (hs'.1.symm.trans hn') hn) (fun hn' => hidle hn' host')
  · intro s host hn
    refine SourceOver.kept_close (P := Parted farewell _) (fun s' host' hs' => ?_) layers s host (Parted.refl hn host)
    exact hs'.release (fun hn' => h.release hn' host') (fun hn' => hidle hn' host')

/-- As long as no layer is closed, the handle is gone after a run exactly if there was a close in it. -/
private theorem gone_iff (h : HandleSource ℓ farewell) {layers : List Layer} (calls : List (SourceCall × Host))
    {s : SourceOver κ ℓ layers} (ho : SourceOver.Unclosed layers s) (hs : farewell (SourceOver.leaf layers s) = none) :
    farewell (SourceOver.leaf layers (runPartings SourceCall.perform calls s).1) ≠ none ↔
      ∃ host, (.close, host) ∈ calls := by
  induction calls generalizing s with
  | nil => simp [runPartings, hs]
  | cons c calls ih =>
    obtain ⟨call, host⟩ := c
    cases call with
    | read n b =>
      have ho' : SourceOver.Unclosed layers (ByteSource.read s n b host).source :=
        (SourceOver.kept_unclosed layers).read s n b host ho
      have hne : SourceCall.read n b ≠ .close := by simp
      have hs' : farewell (SourceOver.leaf layers (ByteSource.read s n b host).source) = none :=
        ((h.partsOnce layers).hold hne s host).trans hs
      have hrest := ih ho' hs'
      simp only [List.mem_cons, Prod.mk.injEq, reduceCtorEq, false_and, false_or]
      exact hrest
    | close =>
      obtain ⟨e, he, -⟩ := h.release hs host
      have hgone : farewell (SourceOver.leaf layers (ByteSource.close s host).endpoint) ≠ none := by
        rw [SourceOver.leaf_close_of_unclosed ho, he]
        exact Option.some_ne_none e
      have hrest := ((h.partsOnce layers).run calls (ByteSource.close s host).endpoint).1 hgone
      refine ⟨fun _ => ⟨host, List.mem_cons_self⟩, fun _ => ?_⟩
      rw [← hrest] at hgone
      exact hgone

theorem closes (h : HandleSource ℓ farewell) (layers : List Layer) : SourceCloses κ farewell layers := by
  constructor
  · intro s host later
    have hinert : InertSource (SourceOver.longest layers) (ByteSource.close s host).endpoint := by
      by_cases hne : layers = []
      · subst hne
        exact h.inert_close s host
      · exact SourceOver.inert_close hne s host
    exact ⟨runPartings_of_idle fun c _ => hinert.perform c.1 c.2, hinert⟩
  · exact h.partsOnce layers
  · intro calls s hs
    rw [((h.partsOnce layers).run calls s).2, if_pos hs]
  · exact fun calls s ho hs => h.gone_iff calls ho hs

end HandleSource

/-! ### Stacks of sinks -/

namespace SinkOver

variable {κ ℓ : Type} [ByteCipher κ] [ByteSink ℓ]

/-- What a call makes of a stack of sinks and the host. -/
def performOn (layers : List Layer) (call : Call) (s : SinkOver κ ℓ layers) (host : Host) : SinkOver κ ℓ layers × Host :=
  match call with
  | .write n b => ((ByteSink.write s n b host).sink, (ByteSink.write s n b host).host)
  | .flush => ((ByteSink.flush s host).endpoint, (ByteSink.flush s host).host)
  | .finish => ((finish? layers s host).map fun o => (o.endpoint, o.host)).getD (s, host)
  | .close => ((ByteSink.close s host).endpoint, (ByteSink.close s host).host)

/-- The call is one on the outermost sink itself; only an encoder of text has a segment to end. -/
def Outermost (layers : List Layer) (call : Call) : Prop := call = .finish → layers.head? = some .base64

theorem Inert.performOn {layers : List Layer} {s : SinkOver κ ℓ layers} (h : Inert layers s) {call : Call}
    (hc : Outermost layers call) (host : Host) : performOn layers call s host = (s, host) := by
  cases call with
  | write n b =>
    obtain ⟨e, hw, -⟩ := h.write n b host
    simp only [SinkOver.performOn, hw]
  | flush => simp only [SinkOver.performOn, h.flush]
  | finish =>
    rw [SinkOver.performOn, h.finish (hc rfl)]
    rfl
  | close => simp only [SinkOver.performOn, h.close]

end SinkOver

/-- Closing a stack of sinks.  After a close that is not to be repeated the stack is inert whatever calls come later;
and whatever calls are made before, the farewell of the innermost sink is reported once, by the close that gives up its
handle. -/
structure SinkCloses (κ : Type) {ℓ : Type} [ByteCipher κ] [ByteSink ℓ] (farewell : ℓ → Option Event)
    (layers : List Layer) : Prop where
  inert (s : SinkOver κ ℓ layers) (host : Host) (hr : ¬ retryable (ByteSink.close s host).result)
    (later : List (SinkOver.Call × Host)) (hlater : ∀ c ∈ later, SinkOver.Outermost layers c.1) :
    runPartings (SinkOver.performOn layers) later (ByteSink.close s host).endpoint =
        ((ByteSink.close s host).endpoint, []) ∧
      SinkOver.Inert layers (ByteSink.close s host).endpoint
  parts : PartsOnce (SinkOver.performOn layers) .close (SinkOver.leaf (κ := κ) layers) farewell
  run (calls : List (SinkOver.Call × Host)) (s : SinkOver κ ℓ layers) (hs : farewell (SinkOver.leaf layers s) = none) :
    (runPartings (SinkOver.performOn layers) calls s).2 =
      (farewell (SinkOver.leaf layers (runPartings (SinkOver.performOn layers) calls s).1)).toList

namespace HandleSink

variable {κ ℓ : Type} [ByteCipher κ] [ByteSink ℓ] {farewell : ℓ → Option Event}

private theorem idle_write (h : HandleSink ℓ farewell) {s : ℓ} (hn : farewell s ≠ none) (n : Nat) (b : Buffer)
    (host : Host) : (ByteSink.write s n b host).sink = s ∧ (ByteSink.write s n b host).host = host := by
  obtain ⟨e, hw, -⟩ := (h.inert hn).write n b host
  rw [hw]
  exact ⟨rfl, rfl⟩

private theorem idle_flush (h : HandleSink ℓ farewell) {s : ℓ} (hn : farewell s ≠ none) (host : Host) :
    (ByteSink.flush s host).endpoint = s ∧ (ByteSink.flush s host).host = host := by
  rw [(h.inert hn).flush]
  exact ⟨rfl, rfl⟩

private theorem idle_close (h : HandleSink ℓ farewell) {s : ℓ} (hn : farewell s ≠ none) (host : Host) :
    (ByteSink.close s host).endpoint = s ∧ (ByteSink.close s host).host = host := by
  rw [(h.inert hn).close]
  exact ⟨rfl, rfl⟩

private theorem kept_still (h : HandleSink ℓ farewell) (a : ℓ) (told : List Event) :
    KeptByWrites (Still farewell a told) where
  steps := Still.steps
  write _ n b host hs := hs.call (fun hn => h.hold hn n b host) (fun hn => h.idle_write hn n b host)
  flush _ host hs := hs.call (fun hn => h.holdFlush hn host) (fun hn => h.idle_flush hn host)

private theorem kept_parted (h : HandleSink ℓ farewell) (told : List Event) : KeptByWrites (Parted farewell told) where
  steps := Parted.steps
  write _ n b host hs := hs.hold (fun hn => h.hold hn n b host) (fun hn => h.idle_write hn n b host)
  flush _ host hs := hs.hold (fun hn => h.holdFlush hn host) (fun hn => h.idle_flush hn host)

private theorem partsOnce (h : HandleSink ℓ farewell) (layers : List Layer) :
    PartsOnce (SinkOver.performOn layers) .close (SinkOver.leaf (κ := κ) layers) farewell := by
  apply PartsOnce.of_still
  · intro call s host hc
    have hs := Still.refl farewell (SinkOver.leaf layers s) host
    have hkept := kept_still h (SinkOver.leaf layers s) (farewells host.journal)
    cases call with
    | write n b => exact (SinkOver.kept hkept layers).write s n b host hs
    | flush => exact (SinkOver.kept hkept layers).flush s host hs
    | finish =>
      rcases ho : SinkOver.finish? layers s host with _ | o
      · simp only [SinkOver.performOn, ho]
        exact hs
      · simp only [SinkOver.performOn, ho]
        exact SinkOver.kept_finish hkept ho hs
    | close =>
      have hn : farewell (SinkOver.leaf layers s) ≠ none := hc.resolve_left (fun hne => hne rfl)
      refine SinkOver.kept_close hkept (fun s' host' hs' => ?_) layers s host hs
      exact hs'.call (fun hn' => absurd (hs'.1.symm.trans hn') hn) (fun hn' => h.idle_close hn' host')
  · intro s host hn
    refine SinkOver.kept_close (kept_parted h _) (fun s' host' hs' => ?_) layers s host (Parted.refl hn host)
    exact hs'.release (fun hn' => h.release hn' host') (fun hn' => h.idle_close hn' host')

theorem closes (h : HandleSink ℓ farewell) (layers : List Layer) : SinkCloses κ farewell layers := by
  constructor
  · intro s host hr later hlater
    have hinert : SinkOver.Inert layers (ByteSink.close s host).endpoint := by
      by_cases hne : layers = []
      · subst hne
        exact ⟨h.inert_close s host, fun hb => by cases hb⟩
      · exact SinkOver.inert_close hne hr
    exact ⟨runPartings_of_idle fun c hmem => hinert.performOn (hlater c hmem) c.2, hinert⟩
  · exact h.partsOnce layers
  · intro calls s hs
    rw [((h.partsOnce layers).run calls s).2, if_pos hs]

end HandleSink

/-! ### Channels and files -/

/-- The farewell of an endpoint that is closed. -/
def farewellOf {ℓ : Type} (closed : ℓ → Bool) (event : ℓ → Event) (s : ℓ) : Option Event :=
  if closed s then some (event s) else none

theorem farewellOf_eq_none_iff {ℓ : Type} {closed : ℓ → Bool} {event : ℓ → Event} {s : ℓ} :
    farewellOf closed event s = none ↔ closed s = false := by simp [farewellOf]

theorem farewells_of_check {deadline : Deadline} {host host' : Host} {r : Except Error Unit}
    (h : deadline.check host = (r, host')) : farewells host'.journal = farewells host.journal := by
  rcases Deadline.journal_of_check h with ⟨-, hj⟩ | ⟨elapsed, -, hj⟩
  · rw [hj]
    exact (farewells_cons ..).trans (List.append_nil _)
  · rw [hj]
    exact (farewells_cons ..).trans (List.append_nil _)

theorem farewells_of_transfer {t : Transfer} {host host' : Host} (h : host'.journal = .transfer t :: host.journal) :
    farewells host'.journal = farewells host.journal := by
  rw [h]
  exact (farewells_cons ..).trans (List.append_nil _)

section

variable {ℓ : Type} {closed : ℓ → Bool} {event : ℓ → Event}

/-- A source has a handle if its reads ask in a way that neither closes it nor says farewell. -/
theorem HandleSource.of_ask [ByteSource ℓ] {waits : ℓ → Nat → Prop}
    (ask : ℓ → Deadline → Nat → Buffer → Host → ReadOutcome ℓ)
    (hwaits : ∀ {s n}, waits s n → ∀ b host, ByteSource.read s n b host =
      ask s ((ByteSource.timeout s).start host).1 n b ((ByteSource.timeout s).start host).2)
    (honce : ∀ {s n}, ¬ waits s n → ∀ b, ∃ r, ∀ host, ByteSource.read s n b host = ⟨r, s, b, host⟩)
    (hask : ∀ s deadline n b host, closed (ask s deadline n b host).source = closed s ∧
      farewells (ask s deadline n b host).host.journal = farewells host.journal)
    (hclose : ∀ {s}, closed s = false → ∀ host, closed (ByteSource.close s host).endpoint = true ∧
      farewells (ByteSource.close s host).host.journal =
        farewells host.journal ++ [event (ByteSource.close s host).endpoint])
    (hclosed : ∀ {s}, closed s = true → InertSource maxRequestLength s) :
    HandleSource ℓ (farewellOf closed event) := by
  constructor
  · intro s h n b host
    rw [farewellOf_eq_none_iff] at h ⊢
    by_cases hw : waits s n
    · obtain ⟨hc, ht⟩ := hask s ((ByteSource.timeout s).start host).1 n b ((ByteSource.timeout s).start host).2
      rw [hwaits hw]
      exact ⟨hc.trans h, ht⟩
    · obtain ⟨r, hr⟩ := honce hw b
      rw [hr]
      exact ⟨h, rfl⟩
  · intro s h host
    obtain ⟨hc, ht⟩ := hclose (farewellOf_eq_none_iff.1 h) host
    exact ⟨_, if_pos hc, ht⟩
  · intro s h
    rw [ne_eq, farewellOf_eq_none_iff] at h
    exact hclosed (by simpa using h)

/-- A sink has a handle if its writes put their bytes in a way that neither closes it nor says farewell, and if what
flushes it is a transfer. -/
theorem HandleSink.of_put [ByteSink ℓ] {isOpen : ℓ → Prop} (put : ℓ → Deadline → Nat → Buffer → Host → WriteOutcome ℓ)
    (push : ℓ → Host → CallOutcome ℓ)
    (hwaits : ∀ {s n b}, isOpen s ∧ 0 < n ∧ checkWrite b.length n = .ok () → ∀ host, ByteSink.write s n b host =
      put s ((ByteSink.timeout s).start host).1 n b ((ByteSink.timeout s).start host).2)
    (honce : ∀ {s n b}, ¬ (isOpen s ∧ 0 < n ∧ checkWrite b.length n = .ok ()) → ∀ host,
      ∃ r host', ByteSink.write s n b host = ⟨r, s, b, host'⟩ ∧ host'.journal = host.journal ∧ host'.disk = host.disk)
    (hput : ∀ s deadline n b host, closed (put s deadline n b host).sink = closed s ∧
      farewells (put s deadline n b host).host.journal = farewells host.journal)
    (hflush : ∀ {s}, closed s = false → ∀ host, ByteSink.flush s host =
      match (ByteSink.timeout s).check host with
      | (.error e, host) => ⟨.error e, s, host⟩
      | (.ok (), host) => push s host)
    (hpush : ∀ s host, closed (push s host).endpoint = closed s ∧
      ∃ t, (push s host).host.journal = .transfer t :: host.journal)
    (hclose : ∀ {s}, closed s = false → ∀ host, closed (ByteSink.close s host).endpoint = true ∧
      farewells (ByteSink.close s host).host.journal =
        farewells host.journal ++ [event (ByteSink.close s host).endpoint])
    (hclosed : ∀ {s}, closed s = true → InertSink s) : HandleSink ℓ (farewellOf closed event) := by
  constructor
  · intro s h n b host
    rw [farewellOf_eq_none_iff] at h ⊢
    by_cases hw : isOpen s ∧ 0 < n ∧ checkWrite b.length n = .ok ()
    · obtain ⟨hc, ht⟩ := hput s ((ByteSink.timeout s).start host).1 n b ((ByteSink.timeout s).start host).2
      rw [hwaits hw]
      exact ⟨hc.trans h, ht⟩
    · obtain ⟨r, host', hr, hj, -⟩ := honce hw host
      rw [hr]
      exact ⟨h, congrArg farewells hj⟩
  · intro s h host
    rw [farewellOf_eq_none_iff] at h ⊢
    rw [hflush h]
    rcases hc : (ByteSink.timeout s).check host with ⟨_ | _, host'⟩
    · have ht := farewells_of_check
        (show ((ByteSink.timeout s).start host).1.check ((ByteSink.timeout s).start host).2 = _ from hc)
      exact ⟨h, ht⟩
    · have ht := farewells_of_check
        (show ((ByteSink.timeout s).start host).1.check ((ByteSink.timeout s).start host).2 = _ from hc)
      obtain ⟨hpushed, t, hj⟩ := hpush s host'
      exact ⟨hpushed.trans h, (farewells_of_transfer hj).trans ht⟩
  · intro s h host
    obtain ⟨hc, ht⟩ := hclose (farewellOf_eq_none_iff.1 h) host
    exact ⟨_, if_pos hc, ht⟩
  · intro s h
    rw [ne_eq, farewellOf_eq_none_iff] at h
    exact hclosed (by simpa using h)

end

namespace ChannelSource

/-- The farewell of a source that reads from a channel. -/
def farewell : ChannelSource → Option Event := farewellOf closed fun _ => .channelClosed .read

private theorem hold_poll (s : ChannelSource) (deadline : Deadline) (n : Nat) (b : Buffer) (host : Host) :
    (s.poll deadline n b host).source.closed = s.closed ∧
      farewells (s.poll deadline n b host).host.journal = farewells host.journal := by
  fun_induction poll s deadline n b host with
  | case1 s host e host' hc => exact ⟨rfl, farewells_of_check hc⟩
  | case2 s host host' hc channel host'' hr =>
    exact ⟨rfl, (farewells_of_transfer (Channel.journal_read hr)).trans (farewells_of_check hc)⟩
  | case3 s host host' hc data channel host'' hr hd =>
    exact ⟨rfl, (farewells_of_transfer (Channel.journal_read hr)).trans (farewells_of_check hc)⟩
  | case4 s host host' hc e channel host'' hr hi ih =>
    have ht := (farewells_of_transfer (Channel.journal_read hr)).trans (farewells_of_check hc)
    exact ⟨ih.1, ih.2.trans ht⟩
  | case5 s host host' hc e channel host'' hr hi =>
    exact ⟨rfl, (farewells_of_transfer (Channel.journal_read hr)).trans (farewells_of_check hc)⟩

theorem handleSource : HandleSource ChannelSource farewell := by
  apply HandleSource.of_ask poll read_of_waits read_at_once hold_poll
  · intro s h host
    have hc : s.close host = ⟨.ok (), { s with closed := true }, host.report (.channelClosed .read)⟩ :=
      if_neg (by simp [h])
    show (s.close host).endpoint.closed = true ∧ farewells (s.close host).host.journal = _
    rw [hc]
    exact ⟨rfl, farewells_cons ..⟩
  · intro s h
    refine ⟨fun n b host => ?_, fun host => if_pos h⟩
    show ∃ e, s.read n b host = _ ∧ _
    unfold ChannelSource.read
    by_cases hl : n ≤ maxRequestLength
    · rw [checkRead_eq_ok_iff.2 hl]
      exact ⟨.closed, if_pos h, fun _ => rfl⟩
    · rw [checkRead, if_pos (Nat.lt_of_not_le hl)]
      exact ⟨_, rfl, fun hle => absurd hle hl⟩

end ChannelSource

namespace FileSource

/-- The farewell of a source that reads a file tells how far it has come. -/
def farewell : FileSource → Option Event := farewellOf closed fun s => .fileClosed s.position

private theorem hold_ask (s : FileSource) (deadline : Deadline) (n : Nat) (b : Buffer) (host : Host) :
    (s.ask deadline n b host).source.closed = s.closed ∧
      farewells (s.ask deadline n b host).host.journal = farewells host.journal := by
  have hpoll (n : Nat) (host : Host) : (s.poll deadline n b host).source.closed = s.closed ∧
      farewells (s.poll deadline n b host).host.journal = farewells host.journal := by
    fun_induction poll s deadline n b host with
    | case1 => exact ⟨rfl, farewells_of_transfer rfl⟩
    | case2 => exact ⟨rfl, farewells_of_transfer rfl⟩
    | case3 host e disk hr hi e' host' hc => exact ⟨rfl, (farewells_of_check hc).trans (farewells_of_transfer rfl)⟩
    | case4 host e disk hr hi host' hc ih =>
      exact ⟨ih.1, ih.2.trans ((farewells_of_check hc).trans (farewells_of_transfer rfl))⟩
    | case5 => exact ⟨rfl, farewells_of_transfer rfl⟩
  unfold ask
  split
  · rename_i hc
    exact ⟨rfl, farewells_of_check hc⟩
  · rename_i host₁ hc
    have hchecked := farewells_of_check hc
    obtain ⟨disk, -, ⟨kind, -, -, hserve⟩ | ⟨-, -, hserve⟩ | ⟨-, hserve⟩⟩ := s.serve_cases deadline n b host₁
    · rw [hserve]
      exact ⟨rfl, hchecked⟩
    · rw [hserve]
      exact ⟨rfl, hchecked⟩
    · rw [hserve]
      obtain ⟨hclosed, ht⟩ := hpoll _ _
      exact ⟨hclosed, ht.trans hchecked⟩

theorem handleSource : HandleSource FileSource farewell := by
  apply HandleSource.of_ask ask read_of_waits read_at_once hold_ask
  · intro s h host
    have hc : s.close host = ⟨.ok (), { s with closed := true }, host.report (.fileClosed s.position)⟩ :=
      if_neg (by simp [h])
    show (s.close host).endpoint.closed = true ∧
      farewells (s.close host).host.journal = _ ++ [.fileClosed (s.close host).endpoint.position]
    rw [hc]
    exact ⟨rfl, farewells_cons ..⟩
  · intro s h
    refine ⟨fun n b host => ?_, fun host => if_pos h⟩
    show ∃ e, s.read n b host = _ ∧ _
    unfold FileSource.read
    by_cases hl : n ≤ maxRequestLength
    · rw [checkRead_eq_ok_iff.2 hl]
      exact ⟨.closed, if_pos h, fun _ => rfl⟩
    · rw [checkRead, if_pos (Nat.lt_of_not_le hl)]
      exact ⟨_, rfl, fun hle => absurd hle hl⟩

end FileSource

namespace ChannelSink

/-- The farewell of a sink that writes to a channel. -/
def farewell : ChannelSink → Option Event := farewellOf closed fun _ => .channelClosed .write

private theorem hold_deliver (s : ChannelSink) (deadline : Deadline) (n : Nat) (b : Buffer) (host : Host) :
    (s.deliver deadline n b host).sink.closed = s.closed ∧
      farewells (s.deliver deadline n b host).host.journal = farewells host.journal := by
  fun_induction deliver s deadline n b host with
  | case1 => exact ⟨rfl, rfl⟩
  | case2 s n b host hn e host' hc => exact ⟨rfl, farewells_of_check hc⟩
  | case3 s n b host hn host' hc channel host'' hw =>
    exact ⟨rfl, (farewells_of_transfer (Channel.journal_write hw)).trans (farewells_of_check hc)⟩
  | case4 s n b host hn host' hc count channel host'' hw hpos ih =>
    have ht := (farewells_of_transfer (Channel.journal_write hw)).trans (farewells_of_check hc)
    exact ⟨ih.1, ih.2.trans ht⟩
  | case5 s n b host hn host' hc e channel host'' hw hi ih =>
    have ht := (farewells_of_transfer (Channel.journal_write hw)).trans (farewells_of_check hc)
    exact ⟨ih.1, ih.2.trans ht⟩
  | case6 s n b host hn host' hc e channel host'' hw hi =>
    exact ⟨rfl, (farewells_of_transfer (Channel.journal_write hw)).trans (farewells_of_check hc)⟩

private theorem closed_flushChannel (s : ChannelSink) (host : Host) :
    (s.flushChannel host).endpoint.closed = s.closed := by
  unfold flushChannel
  split <;> rfl

theorem handleSink : HandleSink ChannelSink farewell := by
  apply HandleSink.of_put deliver flushChannel write_of_waits write_at_once hold_deliver
  · intro s h host
    show s.flush host = _
    rw [ChannelSink.flush, if_neg (by simp [h])]
    rfl
  · intro s host
    exact ⟨closed_flushChannel s host, .channelFlush, s.flushChannel_journal host⟩
  · intro s h host
    -- the event comes before the flush, whatever becomes of that
    have hj := journal_close h host
    have hc : s.close host = { s with closed := true }.flushChannel (host.report (.channelClosed .write)) :=
      if_neg (by simp [h])
    refine ⟨(congrArg (fun o => o.endpoint.closed) hc).trans (closed_flushChannel ..), ?_⟩
    show farewells (s.close host).host.journal = _
    rw [hj, farewells_cons, farewells_cons]
    exact List.append_nil _
  · intro s h
    refine ⟨fun n b host => ?_, fun host => if_pos h, fun host => if_pos h⟩
    show ∃ e, s.write n b host = _ ∧ _
    unfold ChannelSink.write
    rcases checkWrite b.length n with e | _
    · exact ⟨e, rfl, fun hok => by cases hok⟩
    · exact ⟨.closed, if_pos h, fun _ => rfl⟩

end ChannelSink

namespace FileSink

/-- The farewell of a sink that writes to a file tells how far it has come. -/
def farewell : FileSink → Option Event := farewellOf closed fun s => .fileClosed s.position

private theorem hold_deliver (s : FileSink) (deadline : Deadline) (n : Nat) (b : Buffer) (host : Host) :
    (s.deliver deadline n b host).sink.closed = s.closed ∧
      farewells (s.deliver deadline n b host).host.journal = farewells host.journal := by
  fun_induction deliver s deadline n b host with
  | case1 => exact ⟨rfl, rfl⟩
  | case2 s n b host hn e host' hc => exact ⟨rfl, farewells_of_check hc⟩
  | case3 s n b host hn checked hc disk hw host' =>
    exact ⟨rfl, (farewells_of_transfer rfl).trans (farewells_of_check hc)⟩
  | case4 s n b host hn checked hc count disk hw host' hpos ih =>
    exact ⟨ih.1, ih.2.trans ((farewells_of_transfer rfl).trans (farewells_of_check hc))⟩
  | case5 s n b host hn checked hc e disk hw host' hi ih =>
    exact ⟨ih.1, ih.2.trans ((farewells_of_transfer rfl).trans (farewells_of_check hc))⟩
  | case6 s n b host hn checked hc e disk hw host' hi =>
    exact ⟨rfl, (farewells_of_transfer rfl).trans (farewells_of_check hc)⟩

theorem handleSink : HandleSink FileSink farewell := by
  apply HandleSink.of_put deliver store write_of_waits write_at_once hold_deliver
  · intro s h host
    show s.flush host = _
    rw [FileSink.flush, if_neg (by simp [h])]
    rfl
  · intro s host
    obtain ⟨hsame, hjournal, -⟩ := s.store_eq host
    exact ⟨congrArg closed hsame, .fileSync, hjournal⟩
  · intro s h host
    have hc : s.close host = ⟨.ok (), { s with closed := true }, host.report (.fileClosed s.position)⟩ :=
      if_neg (by simp [h])
    show (s.close host).endpoint.closed = true ∧
      farewells (s.close host).host.journal = _ ++ [.fileClosed (s.close host).endpoint.position]
    rw [hc]
    exact ⟨rfl, farewells_cons ..⟩
  · intro s h
    refine ⟨fun n b host => ?_, fun host => if_pos h, fun host => if_pos h⟩
    show ∃ e, s.write n b host = _ ∧ _
    unfold FileSink.write
    rcases checkWrite b.length n with e | _
    · exact ⟨e, rfl, fun hok => by cases hok⟩
    · exact ⟨.closed, if_pos h, fun _ => rfl⟩

end FileSink

/-- Every stack over channels and files is inert once it is closed, and so is every layer over whatever it wraps; and
in every run the innermost endpoint says farewell once, in the close that gives up its handle. -/
theorem closes_once {κ : Type} [ByteCipher κ] (layers : List Layer) :
    (SourceCloses κ ChannelSource.farewell layers ∧ SourceCloses κ FileSource.farewell layers) ∧
    (SinkCloses κ ChannelSink.farewell layers ∧ SinkCloses κ FileSink.farewell layers) ∧
    (layers ≠ [] → ∀ (ℓ : Type) [ByteSource ℓ] (s : SourceOver κ ℓ layers) (host : Host),
      InertSource (SourceOver.longest layers) (ByteSource.close s host).endpoint) ∧
    (layers ≠ [] → ∀ (ℓ : Type) [ByteSink ℓ] (s : SinkOver κ ℓ layers) (host : Host),
      ¬ retryable (ByteSink.close s host).result → SinkOver.Inert layers (ByteSink.close s host).endpoint) := by
  refine ⟨⟨?_, ?_⟩, ⟨?_, ?_⟩, ?_, ?_⟩
  · exact ChannelSource.handleSource.closes layers
  · exact FileSource.handleSource.closes layers
  · exact ChannelSink.handleSink.closes layers
  · exact FileSink.handleSink.closes layers
  · intro hne ℓ _ s host
    exact SourceOver.inert_close hne s host
  · intro hne ℓ _ s host hr
    exact SinkOver.inert_close hne hr

end Conduit
