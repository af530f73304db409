import Linera.Lib.Bcs
import Linera.Lib.LittleEndian

/-!
# Self-delimiting encodings

An encoding is self-delimiting if it can be told from what follows it: two byte strings
that begin with encoded values are equal only if the values are, and the rests. A
concatenation of such encodings can be taken apart from the left.
-/

/-- Among the values with the property `P`, `f` can be read off the front of a byte string. -/
structure SelfDelimiting {α : Type*} (P : α → Prop) (f : α → Bytes) : Prop where
  append_inj : ∀ {a b : α} {x y : Bytes}, P a → P b → f a ++ x = f b ++ y → a = b ∧ x = y

namespace SelfDelimiting

variable {α β : Type*} {P : α → Prop} {Q : β → Prop} {f : α → Bytes} {g : β → Bytes}

/-- An injective encoding of a fixed length. -/
theorem of_length (n : Nat) (hlength : ∀ a, P a → (f a).length = n)
    (hinjective : ∀ a b, P a → P b → f a = f b → a = b) : SelfDelimiting P f := by
  refine ⟨fun {a b x y} ha hb heq => ?_⟩
  obtain ⟨hf, hxy⟩ := List.append_inj heq ((hlength a ha).trans (hlength b hb).symm)
  exact ⟨hinjective a b ha hb hf, hxy⟩

/-- One encoding after another. -/
theorem append (hf : SelfDelimiting P f) (hg : SelfDelimiting Q g) :
    SelfDelimiting (fun p : α × β => P p.1 ∧ Q p.2) fun p => f p.1 ++ g p.2 := by
  constructor
  rintro ⟨a, b⟩ ⟨a', b'⟩ x y ⟨ha, hb⟩ ⟨ha', hb'⟩ heq
  rw [List.append_assoc, List.append_assoc] at heq
  obtain ⟨rfl, heq⟩ := hf.append_inj ha ha' heq
  obtain ⟨rfl, hxy⟩ := hg.append_inj hb hb' heq
  exact ⟨rfl, hxy⟩

/-- A value is encoded as another one. -/
theorem comp (hg : SelfDelimiting Q g) {h : α → β} (hQ : ∀ a, P a → Q (h a))
    (hinjective : Function.Injective h) : SelfDelimiting P fun a => g (h a) := by
  refine ⟨fun {a b x y} ha hb heq => ?_⟩
  obtain ⟨hab, hxy⟩ := hg.append_inj (hQ a ha) (hQ b hb) heq
  exact ⟨hinjective hab, hxy⟩

/-- A number in `n` bytes. -/
theorem ofLittleEndian (n : Nat) : SelfDelimiting (· < 256 ^ n) (Bytes.ofLittleEndian n) :=
  of_length n (fun x _ => Bytes.length_ofLittleEndian n x)
    fun _ _ hx hy => Bytes.ofLittleEndian_injective hx hy

theorem bcsBytes : SelfDelimiting (fun b : Bytes => b.length ≤ Bcs.maxSequenceLength)
    fun b => Bcs.uleb128 b.length ++ b := by
  refine ⟨fun {a b x y} ha hb heq => ?_⟩
  have hread := Bcs.readLength_uleb128 ha (a ++ x)
  rw [← List.append_assoc, heq, List.append_assoc, Bcs.readLength_uleb128 hb] at hread
  obtain ⟨hlength, hrest⟩ := Prod.mk.inj (Option.some.inj hread)
  obtain ⟨hba, hyx⟩ := List.append_inj hrest hlength
  exact ⟨hba.symm, hyx.symm⟩

end SelfDelimiting
