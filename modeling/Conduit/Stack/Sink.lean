import Conduit.Base64.Sink
import Conduit.Channel.Sink
import Conduit.Cipher.Any
import Conduit.Cipher.Sink
import Conduit.File.Sink
import Conduit.Memory.Sink
import Conduit.Script.Sink
import Conduit.Stack.Layer

/-!
# Stacks of sinks

`SinkOver κ ℓ layers` is a sink that writes through the given layers to an innermost sink of type `ℓ`, with ciphers of
type `κ`; it is a sink again, whatever the layers.  `SinkStack` is such a sink with any layers over any of the innermost
sinks there are.
-/

namespace Conduit

/-- A sink that writes through layers to an innermost one. -/
def SinkOver (κ ℓ : Type) : List Layer → Type
  | [] => ℓ
  | .base64 :: layers => Base64Sink (SinkOver κ ℓ layers)
  | .cipher :: layers => CipherSink κ (SinkOver κ ℓ layers)

namespace SinkOver

variable {κ ℓ : Type}

/-- A stack of sinks is a sink. -/
@[reducible] def byteSink [ByteCipher κ] [ByteSink ℓ] : (layers : List Layer) → ByteSink (SinkOver κ ℓ layers)
  | [] => inferInstanceAs (ByteSink ℓ)
  | .base64 :: layers =>
    haveI : ByteSink (SinkOver κ ℓ layers) := byteSink layers
    inferInstanceAs (ByteSink (Base64Sink (SinkOver κ ℓ layers)))
  | .cipher :: layers =>
    haveI : ByteSink (SinkOver κ ℓ layers) := byteSink layers
    inferInstanceAs (ByteSink (CipherSink κ (SinkOver κ ℓ layers)))

instance [ByteCipher κ] [ByteSink ℓ] (layers : List Layer) : ByteSink (SinkOver κ ℓ layers) := byteSink layers

/-- The innermost sink. -/
def leaf : (layers : List Layer) → SinkOver κ ℓ layers → ℓ
  | [], s => s
  | .base64 :: layers, s => leaf layers (Base64Sink.inner s)
  | .cipher :: layers, s => leaf layers (CipherSink.inner s)

/-- The sink with another innermost one. -/
def setLeaf (ℓ' : ℓ) : (layers : List Layer) → SinkOver κ ℓ layers → SinkOver κ ℓ layers
  | [], _ => ℓ'
  | .base64 :: layers, (s : Base64Sink (SinkOver κ ℓ layers)) => { s with inner := setLeaf ℓ' layers s.inner }
  | .cipher :: layers, (s : CipherSink κ (SinkOver κ ℓ layers)) => { s with inner := setLeaf ℓ' layers s.inner }

/-- Ends the segment of the outermost encoder of text, if there is one with only ciphers above it. -/
def finish? [ByteCipher κ] [ByteSink ℓ] :
    (layers : List Layer) → SinkOver κ ℓ layers → Host → Option (CallOutcome (SinkOver κ ℓ layers))
  | [], _, _ => none
  | .base64 :: layers, s, host => some (Base64Sink.finish (σ := SinkOver κ ℓ layers) s host)
  | .cipher :: layers, (s : CipherSink κ (SinkOver κ ℓ layers)), host =>
    (finish? layers s.inner host).map fun o => o.lift fun inner => { s with inner }

end SinkOver

/-- An innermost sink. -/
inductive SinkLeaf where
  | memory (s : MemorySink)
  | channel (s : ChannelSink)
  | file (s : FileSink)
  | scripted (s : ScriptedSink)

namespace SinkLeaf

def write (s : SinkLeaf) (n : Nat) (b : Buffer) (host : Host) : WriteOutcome SinkLeaf :=
  match s with
  | .memory s => (s.write n b host).lift .memory
  | .channel s => (s.write n b host).lift .channel
  | .file s => (s.write n b host).lift .file
  | .scripted s => (s.write n b host).lift .scripted

def flush (s : SinkLeaf) (host : Host) : CallOutcome SinkLeaf :=
  match s with
  | .memory s => (s.flush host).lift .memory
  | .channel s => (s.flush host).lift .channel
  | .file s => (s.flush host).lift .file
  | .scripted s => (s.flush host).lift .scripted

def close (s : SinkLeaf) (host : Host) : CallOutcome SinkLeaf :=
  match s with
  | .memory s => (s.close host).lift .memory
  | .channel s => (s.close host).lift .channel
  | .file s => (s.close host).lift .file
  | .scripted s => (s.close host).lift .scripted

def timeout : SinkLeaf → Timeout
  | .memory s => s.timeout
  | .channel s => s.timeout
  | .file s => s.timeout
  | .scripted s => s.timeout

/-- The sink with another timeout, if that can be set. -/
def setTimeout? (s : SinkLeaf) (timeout : Timeout) : Option SinkLeaf :=
  match s with
  | .memory _ => none
  | .channel s => some (.channel { s with timeout })
  | .file s => some (.file { s with timeout })
  | .scripted s => some (.scripted { s with timeout })

/-- What is wrong with a write that the sink does not check itself. -/
def fault? (s : SinkLeaf) (n : Nat) (b : Buffer) : Option Buffer.Fault :=
  match s with
  | .scripted s => s.fault? n b
  | _ => none

instance : ByteSink SinkLeaf where
  write := write
  flush := flush
  close := close
  timeout := timeout
  discard _ host := host

end SinkLeaf

/-- A sink with any layers. -/
structure SinkStack where
  layers : List Layer
  top : SinkOver AnyCipher SinkLeaf layers

namespace SinkStack

def ofLeaf (s : SinkLeaf) : SinkStack := ⟨[], s⟩

/-- Puts an encoder of text on top. -/
def overBase64 (s : SinkStack) (engine : Base64.Engine) (segmented : Bool) : SinkStack :=
  ⟨.base64 :: s.layers, Base64Sink.new s.top engine segmented⟩

/-- Puts a cipher on top. -/
def overCipher (s : SinkStack) (cipher : AnyCipher) : SinkStack :=
  ⟨.cipher :: s.layers, CipherSink.new s.top cipher⟩

def leaf (s : SinkStack) : SinkLeaf := SinkOver.leaf s.layers s.top

instance : ByteSink SinkStack where
  write s n b host := (ByteSink.write s.top n b host).lift (SinkStack.mk s.layers)
  flush s host := (ByteSink.flush s.top host).lift (SinkStack.mk s.layers)
  close s host := (ByteSink.close s.top host).lift (SinkStack.mk s.layers)
  timeout s := ByteSink.timeout s.top
  discard s host := ByteSink.discard s.top host

/-- Ends the segment of the outermost encoder of text; `none` if there is none below the ciphers on top. -/
def finish? (s : SinkStack) (host : Host) : Option (CallOutcome SinkStack) :=
  (SinkOver.finish? s.layers s.top host).map fun o => o.lift (SinkStack.mk s.layers)

/-- Gives back the sink without its outermost layer, if that has nothing left to deliver, else gives all up; `none` if
there is no layer. -/
def release? (s : SinkStack) (host : Host) : Option (Except Error SinkStack × Host) :=
  match s with
  | ⟨[], _⟩ => none
  | ⟨.base64 :: layers, s⟩ =>
    let (result, host) := Base64Sink.release (σ := SinkOver AnyCipher SinkLeaf layers) s host
    some (result.map (SinkStack.mk layers), host)
  | ⟨.cipher :: layers, s⟩ =>
    let (result, host) := CipherSink.release (κ := AnyCipher) (σ := SinkOver AnyCipher SinkLeaf layers) s host
    some (result.map (SinkStack.mk layers), host)

/-- The sink with another timeout of its innermost sink, if that can be set. -/
def setTimeout? (s : SinkStack) (timeout : Timeout) : Option SinkStack :=
  (s.leaf.setTimeout? timeout).map fun leaf => ⟨s.layers, SinkOver.setLeaf leaf s.layers s.top⟩

/-- What is wrong with a write that no layer checks. -/
def fault? (s : SinkStack) (n : Nat) (b : Buffer) : Option Buffer.Fault :=
  match s with
  | ⟨[], s⟩ => SinkLeaf.fault? s n b
  | ⟨_ :: _, _⟩ => none

end SinkStack

end Conduit
