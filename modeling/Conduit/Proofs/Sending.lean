import Conduit.Proofs.Base64.Delivery
import Conduit.Proofs.Cipher.Delivery
import Conduit.Stack.Sink
import Conduit.Transfer

/-!
# Sending through a stack of sinks

A payload is sent through a stack in any number of writes; each is repeated with what is left in its buffer as long as
it fails, and the close as long as it runs out of time.  When this comes to an end, the innermost sink has received the
payload as the layers code it at once, one after the other (`written_of_deliver`), however often and wherever the way
was blocked.
-/

namespace Conduit

/-! ### Stacks -/

namespace SinkOver

variable {ℓ : Type}

@[reducible] def deliveringSink [ByteSink ℓ] [DeliveringSink ℓ] :
    (layers : List Layer) → DeliveringSink (SinkOver CbcEncryptor ℓ layers)
  | [] => inferInstanceAs (DeliveringSink ℓ)
  | .base64 :: layers =>
    haveI : DeliveringSink (SinkOver CbcEncryptor ℓ layers) := deliveringSink layers
    inferInstanceAs (DeliveringSink (Base64Sink (SinkOver CbcEncryptor ℓ layers)))
  | .cipher :: layers =>
    haveI : DeliveringSink (SinkOver CbcEncryptor ℓ layers) := deliveringSink layers
    inferInstanceAs (DeliveringSink (CipherSink CbcEncryptor (SinkOver CbcEncryptor ℓ layers)))

instance [ByteSink ℓ] [DeliveringSink ℓ] (layers : List Layer) : DeliveringSink (SinkOver CbcEncryptor ℓ layers) :=
  deliveringSink layers

end SinkOver

/-! ### Codings -/

/-- What a layer of a stack does to the bytes that pass through it. -/
inductive Coding where
  | base64 (engine : Base64.Engine) (segmented : Bool)
  | encryption (cipher : BlockCipher) (iv : Bytes)

namespace Coding

/-- The kind of layer that does so. -/
def layer : Coding → Layer
  | .base64 _ _ => .base64
  | .encryption _ _ => .cipher

/-- The result for a whole string at once. -/
def code : Coding → Bytes → Bytes
  | .base64 e _, x => e.encode x
  | .encryption c iv, x => c.encryptPadded iv x

/-- The result of all codings, the first one applied first. -/
def codeAll (codings : List Coding) (x : Bytes) : Bytes := codings.foldl (fun x c => c.code x) x

/-- The results there may be if segments are coded by themselves. -/
def Codes : List Coding → Bytes → Bytes → Prop
  | [], x, t => t = x
  | .base64 e segmented :: codings, x, t =>
    ∃ segments, Base64Sink.Segments segmented x segments ∧ Codes codings (segments.flatMap e.encode) t
  | .encryption c iv :: codings, x, t => Codes codings (c.encryptPadded iv x) t

/-- Whether the whole string is coded at once. -/
def isPlain : Coding → Bool
  | .base64 _ segmented => !segmented
  | .encryption _ _ => true

theorem eq_codeAll_of_codes {codings : List Coding} (hp : codings.all isPlain) {x t : Bytes} (h : Codes codings x t) :
    t = codeAll codings x := by
  induction codings generalizing x with
  | nil => exact h
  | cons c codings ih =>
    rw [List.all_cons, Bool.and_eq_true] at hp
    cases c with
    | base64 e segmented =>
      obtain ⟨segments, hs, hc⟩ := h
      have hm : segmented = false := by simpa [isPlain] using hp.1
      obtain rfl : segments = [x] := by simpa [hm, Base64Sink.Segments] using hs
      rw [List.flatMap_singleton] at hc
      exact ih hp.2 hc
    | encryption c iv => exact ih hp.2 h

/-! ### Fresh stacks -/

variable {ℓ : Type}

/-- A fresh stack of sinks for the codings. -/
def sink (leaf : ℓ) : (codings : List Coding) → SinkOver CbcEncryptor ℓ (codings.map layer)
  | [] => leaf
  | .base64 e segmented :: codings => Base64Sink.new (sink leaf codings) e segmented
  | .encryption c iv :: codings => CipherSink.new (sink leaf codings) (.new c iv)

variable [ByteSink ℓ] [ReceivingSink ℓ]

open DeliveringSink ReceivingSink

theorem isOpen_sink (leaf : ℓ) (codings : List Coding) : IsOpen (sink leaf codings) := by
  induction codings with
  | nil => trivial
  | cons c codings ih =>
    cases c with
    | base64 e segmented => exact ⟨rfl, ih⟩
    | encryption c iv => exact ⟨rfl, c.blockSize_pos, ih⟩

theorem codes_of_mayDeliver {leaf : ℓ} {codings : List Coding} {x t : Bytes} (h : MayDeliver (sink leaf codings) x t) :
    ∃ t', Codes codings x t' ∧ t = received leaf ++ t' := by
  induction codings generalizing x with
  | nil => exact ⟨x, rfl, h⟩
  | cons c codings ih =>
    cases c with
    | base64 e segmented =>
      obtain ⟨segments, hs, hd⟩ := h
      obtain ⟨t', ht, rfl⟩ := ih hd
      exact ⟨t', ⟨segments, hs, ht⟩, rfl⟩
    | encryption c iv =>
      have hd : MayDeliver (sink leaf codings) (c.encryptPadded iv x) t := h
      exact ih hd

end Coding

/-! ### Runs -/

section

variable {σ : Type} [ByteSink σ]

/-- Writes a buffer, and again what is left in it as long as that fails; each attempt finds a host of its own. -/
def send : (attempts : List Host) → σ → Buffer → Option σ
  | [], _, _ => none
  | host :: attempts, s, b =>
    match writeAllFrom s b host with
    | ⟨.ok (), s, _, _⟩ => some s
    | ⟨.error _, s, b, _⟩ => send attempts s b

/-- Writes one buffer after the other. -/
def sendAll : (writes : List (Buffer × List Host)) → σ → Option σ
  | [], s => some s
  | (b, attempts) :: writes, s => (send attempts s b).bind (sendAll writes)

/-- Closes a sink, and again as long as there was no time. -/
def shut : (attempts : List Host) → σ → Option σ
  | [], _ => none
  | host :: attempts, s =>
    match ByteSink.close s host with
    | ⟨.ok (), s, _⟩ => some s
    | ⟨.error e, s, _⟩ => if e.retryable then shut attempts s else none

/-- Sends and closes. -/
def deliver (writes : List (Buffer × List Host)) (closes : List Host) (s : σ) : Option σ :=
  (sendAll writes s).bind (shut closes)

/-- The bytes that are sent. -/
def payload (writes : List (Buffer × List Host)) : Bytes := writes.flatMap fun w => w.1.toList

variable [DeliveringSink σ]

open DeliveringSink

theorem mayDeliver_of_send {attempts : List Host} {s s' : σ} {b : Buffer} (ho : IsOpen s)
    (h : send attempts s b = some s') : IsOpen s' ∧ ∀ y t, MayDeliver s' y t → MayDeliver s (b.toList ++ y) t := by
  induction attempts generalizing s b with
  | nil => cases h
  | cons host attempts ih =>
    -- whether the write succeeds or not, what is left in the buffer is still to come
    have hwo := isOpen_write b.length b host ho
    have hwd {y t : Bytes} := mayDeliver_write b.length b host (y := y) (t := t) ho
    have hok : (ByteSink.write s b.length b host).result = .ok () → _ := ExactSink.buffer_of_write_ok
    rw [send, writeAllFrom] at h
    split at h
    · rename_i hw
      rw [hw] at hwo hwd hok
      cases h
      refine ⟨hwo, ?_⟩
      intro y t hd
      apply hwd
      rw [hok rfl, ← Buffer.length_toList, List.drop_length]
      exact hd
    · rename_i hw
      rw [hw] at hwo hwd
      obtain ⟨ho', hd'⟩ := ih hwo h
      refine ⟨ho', ?_⟩
      intro y t hd
      exact hwd (hd' y t hd)

theorem mayDeliver_of_sendAll {writes : List (Buffer × List Host)} {s s' : σ} (ho : IsOpen s)
    (h : sendAll writes s = some s') : IsOpen s' ∧ ∀ y t, MayDeliver s' y t → MayDeliver s (payload writes ++ y) t := by
  induction writes generalizing s with
  | nil =>
    cases h
    exact ⟨ho, fun y t hd => hd⟩
  | cons w writes ih =>
    obtain ⟨s₁, h₁, h₂⟩ := Option.bind_eq_some_iff.1 h
    obtain ⟨ho₁, hd₁⟩ := mayDeliver_of_send ho h₁
    obtain ⟨ho₂, hd₂⟩ := ih ho₁ h₂
    refine ⟨ho₂, ?_⟩
    intro y t hd
    rw [payload, List.flatMap_cons, List.append_assoc]
    apply hd₁
    exact hd₂ _ _ hd

theorem mayDeliver_of_shut {attempts : List Host} {s s' : σ} (ho : IsOpen s)
    (h : shut attempts s = some s') : MayDeliver s [] (delivered s') := by
  induction attempts generalizing s with
  | nil => cases h
  | cons host attempts ih =>
    have hc {t : Bytes} := mayDeliver_close host (t := t) ho
    rw [shut] at h
    split at h
    · rename_i hr
      have hd := mayDeliver_delivered host ho (by rw [hr])
      rw [hr] at hc hd
      cases h
      exact hc (.inl rfl) hd
    · rename_i e _ _ hr
      split at h
      · rename_i he
        have ho' := isOpen_close host ho (by rw [hr]; exact he)
        rw [hr] at hc ho'
        exact hc (.inr he) (ih ho' h)
      · cases h

theorem mayDeliver_of_deliver {writes : List (Buffer × List Host)} {closes : List Host} {s s' : σ} (ho : IsOpen s)
    (h : deliver writes closes s = some s') : MayDeliver s (payload writes) (delivered s') := by
  obtain ⟨s₁, h₁, h₂⟩ := Option.bind_eq_some_iff.1 h
  obtain ⟨ho₁, hd₁⟩ := mayDeliver_of_sendAll ho h₁
  have hd := hd₁ _ _ (mayDeliver_of_shut ho₁ h₂)
  rwa [List.append_nil] at hd

end

theorem SinkOver.delivered_eq {ℓ : Type} [ByteSink ℓ] [ReceivingSink ℓ] :
    (layers : List Layer) → (s : SinkOver CbcEncryptor ℓ layers) →
      DeliveringSink.delivered s = ReceivingSink.received (leaf layers s)
  | [], _ => rfl
  | .base64 :: layers, s => delivered_eq layers (Base64Sink.inner s)
  | .cipher :: layers, s => delivered_eq layers (CipherSink.inner s)

open Coding

theorem codes_of_deliver {ℓ : Type} [ByteSink ℓ] [ReceivingSink ℓ] {leaf : ℓ} {codings : List Coding}
    {writes : List (Buffer × List Host)} {closes : List Host} {s' : SinkOver CbcEncryptor ℓ (codings.map layer)}
    (h : deliver writes closes (sink leaf codings) = some s') :
    ∃ t, Codes codings (payload writes) t ∧
      ReceivingSink.received (SinkOver.leaf _ s') = ReceivingSink.received leaf ++ t := by
  rw [← SinkOver.delivered_eq]
  exact codes_of_mayDeliver (mayDeliver_of_deliver (isOpen_sink leaf codings) h)

/-- Whatever the channel and the clocks of the attempts do, once the run is over the channel has accepted the payload as
it is coded at once, by the outermost layer first. -/
theorem written_of_deliver {codings : List Coding} (hp : codings.all isPlain) (channel : Channel) (timeout : Timeout)
    (writes : List (Buffer × List Host)) (closes : List Host)
    {s' : SinkOver CbcEncryptor ChannelSink (codings.map layer)}
    (h : deliver writes closes (sink (ChannelSink.ofChannel channel timeout) codings) = some s') :
    (SinkOver.leaf _ s').channel.written = channel.written ++ codeAll codings (payload writes) := by
  obtain ⟨t, ht, hr⟩ := codes_of_deliver h
  rw [← eq_codeAll_of_codes hp ht]
  exact hr

/-- Text, encrypted. -/
def sampleCodings : List Coding :=
  [.base64 .standard false, .encryption (.masking [7, 1, 9, 4] (by decide)) [1, 2, 3, 4]]

/-- A channel that accepts a part, is interrupted, accepts nothing and breaks, before it accepts all. -/
def sampleChannel : Channel := .ofScript []
  [⟨⟨0⟩, .ok (some 2)⟩, ⟨⟨0⟩, .error (.ofDisk .interrupted)⟩, ⟨⟨0⟩, .ok (some 0)⟩,
    ⟨⟨0⟩, .error (.ofDisk .brokenPipe)⟩] []

/-- A host at which the deadline at instant 5 has passed. -/
def lateHost : Host := { Host.start with clock := ⟨9, []⟩ }

/-- Two writes that each come too late at first. -/
def sampleWrites : List (Buffer × List Host) :=
  [(.ofList [1, 2, 3, 4, 5], [lateHost, .start]), (.ofList [6, 7], [lateHost, .start, .start, .start])]

def sampleRun : Option (SinkOver CbcEncryptor ChannelSink (sampleCodings.map layer)) :=
  deliver sampleWrites [lateHost, .start] (sink (ChannelSink.ofChannel sampleChannel (.expiringAt 5)) sampleCodings)

theorem written_of_sampleRun : sampleCodings.all isPlain ∧ ∃ s', sampleRun = some s' ∧
    (SinkOver.leaf _ s').channel.written = codeAll sampleCodings (payload sampleWrites) := by
  have hrun : sampleRun.isSome := by decide +kernel
  obtain ⟨s', hs⟩ := Option.isSome_iff_exists.1 hrun
  exact ⟨by decide, s', hs, written_of_deliver (by decide) sampleChannel (.expiringAt 5) _ _ hs⟩

end Conduit
