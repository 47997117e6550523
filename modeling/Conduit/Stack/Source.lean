import Conduit.Base64.Source
import Conduit.Channel.Source
import Conduit.Cipher.Any
import Conduit.Cipher.Source
import Conduit.File.Source
import Conduit.Memory.Source
import Conduit.Script.Source
import Conduit.Stack.Layer

/-!
# Stacks of sources

`SourceOver κ ℓ layers` is a source that reads through the given layers from an innermost source of type `ℓ`, with
ciphers of type `κ`; it is a source again, whatever the layers.  `SourceStack` is such a source with any layers over
any of the innermost sources there are.
-/

namespace Conduit

/-- A source that reads through layers from an innermost one. -/
def SourceOver (κ ℓ : Type) : List Layer → Type
  | [] => ℓ
  | .base64 :: layers => Base64Source (SourceOver κ ℓ layers)
  | .cipher :: layers => CipherSource κ (SourceOver κ ℓ layers)

namespace SourceOver

variable {κ ℓ : Type}

/-- A stack of sources is a source. -/
@[reducible] def byteSource [ByteCipher κ] [ByteSource ℓ] : (layers : List Layer) → ByteSource (SourceOver κ ℓ layers)
  | [] => inferInstanceAs (ByteSource ℓ)
  | .base64 :: layers =>
    haveI : ByteSource (SourceOver κ ℓ layers) := byteSource layers
    inferInstanceAs (ByteSource (Base64Source (SourceOver κ ℓ layers)))
  | .cipher :: layers =>
    haveI : ByteSource (SourceOver κ ℓ layers) := byteSource layers
    inferInstanceAs (ByteSource (CipherSource κ (SourceOver κ ℓ layers)))

instance [ByteCipher κ] [ByteSource ℓ] (layers : List Layer) : ByteSource (SourceOver κ ℓ layers) := byteSource layers

/-- The innermost source. -/
def leaf : (layers : List Layer) → SourceOver κ ℓ layers → ℓ
  | [], s => s
  | .base64 :: layers, s => leaf layers (Base64Source.inner s)
  | .cipher :: layers, s => leaf layers (CipherSource.inner s)

end SourceOver

/-- An innermost source. -/
inductive SourceLeaf where
  | memory (s : MemorySource)
  | channel (s : ChannelSource)
  | file (s : FileSource)
  | scripted (s : ScriptedSource)

namespace SourceLeaf

def read (s : SourceLeaf) (n : Nat) (b : Buffer) (host : Host) : ReadOutcome SourceLeaf :=
  match s with
  | .memory s => (s.read n b host).lift .memory
  | .channel s => (s.read n b host).lift .channel
  | .file s => (s.read n b host).lift .file
  | .scripted s => (s.read n b host).lift .scripted

def close (s : SourceLeaf) (host : Host) : CallOutcome SourceLeaf :=
  match s with
  | .memory s => (s.close host).lift .memory
  | .channel s => (s.close host).lift .channel
  | .file s => (s.close host).lift .file
  | .scripted s => (s.close host).lift .scripted

def timeout : SourceLeaf → Timeout
  | .memory s => s.timeout
  | .channel s => s.timeout
  | .file s => s.timeout
  | .scripted s => s.timeout

/-- The source with another timeout, if that can be set. -/
def setTimeout? (s : SourceLeaf) (timeout : Timeout) : Option SourceLeaf :=
  match s with
  | .memory _ => none
  | .channel s => some (.channel { s with timeout })
  | .file s => some (.file { s with timeout })
  | .scripted s => some (.scripted { s with timeout })

def patience : SourceLeaf → Nat
  | .memory s => ByteSource.patience s
  | .channel s => ByteSource.patience s
  | .file s => ByteSource.patience s
  | .scripted s => ByteSource.patience s

instance : ByteSource SourceLeaf where
  read := read
  close := close
  timeout := timeout
  patience := patience
  length_read {s n b host k} h := by
    cases s with
    | memory s => exact ByteSource.length_read (σ := MemorySource) h
    | channel s => exact ByteSource.length_read (σ := ChannelSource) h
    | file s => exact ByteSource.length_read (σ := FileSource) h
    | scripted s => exact ByteSource.length_read (σ := ScriptedSource) h
  patience_read {s n b host r} hn h := by
    cases s with
    | memory s => exact ByteSource.patience_read (σ := MemorySource) hn h
    | channel s => exact ByteSource.patience_read (σ := ChannelSource) hn h
    | file s => exact ByteSource.patience_read (σ := FileSource) hn h
    | scripted s => exact ByteSource.patience_read (σ := ScriptedSource) hn h

end SourceLeaf

/-- A source with any layers. -/
structure SourceStack where
  layers : List Layer
  top : SourceOver AnyCipher SourceLeaf layers

namespace SourceStack

def ofLeaf (s : SourceLeaf) : SourceStack := ⟨[], s⟩

/-- Puts a decoder of text on top. -/
def overBase64 (s : SourceStack) (engine : Base64.Engine) : SourceStack :=
  ⟨.base64 :: s.layers, Base64Source.new s.top engine⟩

/-- Puts a cipher on top. -/
def overCipher (s : SourceStack) (cipher : AnyCipher) : SourceStack :=
  ⟨.cipher :: s.layers, CipherSource.new s.top cipher⟩

def leaf (s : SourceStack) : SourceLeaf := SourceOver.leaf s.layers s.top

def read (s : SourceStack) (n : Nat) (b : Buffer) (host : Host) : ReadOutcome SourceStack :=
  (ByteSource.read s.top n b host).lift (SourceStack.mk s.layers)

def close (s : SourceStack) (host : Host) : CallOutcome SourceStack :=
  (ByteSource.close s.top host).lift (SourceStack.mk s.layers)

def timeout (s : SourceStack) : Timeout := ByteSource.timeout s.top

instance : ByteSource SourceStack where
  read := read
  close := close
  timeout := timeout
  patience s := ByteSource.patience s.top
  length_read h := ByteSource.length_read (σ := SourceOver AnyCipher SourceLeaf _) h
  patience_read hn h := ByteSource.patience_read (σ := SourceOver AnyCipher SourceLeaf _) hn h

/-- The source without its outermost layer, if it has one. -/
def inner? : SourceStack → Option SourceStack
  | ⟨[], _⟩ => none
  | ⟨.base64 :: layers, s⟩ => some ⟨layers, Base64Source.inner s⟩
  | ⟨.cipher :: layers, s⟩ => some ⟨layers, CipherSource.inner s⟩

/-- The source with another timeout; only an innermost source can be told. -/
def setTimeout? (s : SourceStack) (timeout : Timeout) : Option SourceStack :=
  match s with
  | ⟨[], s⟩ => (SourceLeaf.setTimeout? s timeout).map ofLeaf
  | ⟨_ :: _, _⟩ => none

end SourceStack

end Conduit
