import Ns3Routing.Codec
import Ns3Routing.Lib.Cursor

/-! # `Buffer::Iterator`

How the classes of `Codec` read a packet. `Codec` reads lists of bytes, which
have an end; an iterator is a position in memory. Its only check is an
assertion in `ReadU8`, which builds may leave out and which lets the position
behind the last byte pass; `ReadNtohU32` takes four bytes without it unless
they cross the zero area.

`Follows` says that an iterator reads what the function of the same name in
`Lib.Bytes` reads, or else reads behind the packet. -/

namespace Ns3Routing.Codec

open Lib

/-- The buffer of a packet with the given bytes, and the memory behind them.
The zero area of such a packet is empty, but it is somewhere; `assertEnable`
is `NS3_ASSERT_ENABLE`. -/
structure Buffer where
  bytes : List UInt8
  beyond : ℕ → UInt8
  zeroArea : ℕ
  assertEnable : Bool

/-- `m_data[offset]`. -/
def Buffer.data (b : Buffer) (offset : ℕ) : UInt8 :=
  b.bytes[offset]?.getD (b.beyond (offset - b.bytes.length))

namespace Iterator

abbrev Read := Cursor Buffer

def readU8 : Read UInt8 := fun b current =>
  if b.assertEnable ∧ ¬ current ≤ b.bytes.length then ⟨[], none⟩
  else ⟨[current], some (b.data current, current + 1)⟩

def readU16 : Read UInt16 := do
  let byte0 ← readU8
  let byte1 ← readU8
  return byte1.toUInt16 <<< 8 ||| byte0.toUInt16

def slowReadNtohU32 : Read UInt32 := do
  let byte0 ← readU8
  let byte1 ← readU8
  let byte2 ← readU8
  let byte3 ← readU8
  return ((byte0.toUInt32 <<< 8 ||| byte1.toUInt32) <<< 8 ||| byte2.toUInt32) <<< 8 |||
    byte3.toUInt32

def readNtohU32 : Read UInt32 := fun b current =>
  if current + 4 ≤ b.zeroArea ∨ b.zeroArea ≤ current then
    ⟨[current, current + 1, current + 2, current + 3],
      some ((((b.data current).toUInt32 <<< 8 ||| (b.data (current + 1)).toUInt32) <<< 8 |||
        (b.data (current + 2)).toUInt32) <<< 8 ||| (b.data (current + 3)).toUInt32, current + 4)⟩
  else slowReadNtohU32 b current

def read (size : ℕ) : Read (List UInt8) := readU8.appendMany size []

end Iterator

section Spec
variable {b : Buffer} {current : ℕ}

theorem Buffer.data_of_drop {a : UInt8} {s : List UInt8} (h : b.bytes.drop current = a :: s) :
    current < b.bytes.length ∧ b.data current = a ∧ b.bytes.drop (current + 1) = s := by
  have hget : b.bytes[current]? = some a := by
    rw [← List.head?_drop, h]
    rfl
  refine ⟨(List.getElem?_eq_some_iff.mp hget).1, ?_, ?_⟩
  · rw [Buffer.data, hget]
    rfl
  · rw [← List.tail_drop, h]
    rfl

theorem follows_readU8 : Follows Buffer.bytes Iterator.readU8 readU8 := by
  constructor
  · intro b current a rest hle h
    obtain ⟨hlt, rfl, rfl⟩ := Buffer.data_of_drop (cons_of_readU8 h).symm
    have hread : Iterator.readU8 b current = ⟨[current], some (b.data current, current + 1)⟩ :=
      if_neg fun hfail => hfail.2 hle
    rw [hread]
    exact ⟨current + 1, hlt, rfl, rfl, fun i hi => List.mem_singleton.mp hi ▸ hlt⟩
  · intro b current hle h
    have hread : Iterator.readU8 b current = ⟨[current], some (b.data current, current + 1)⟩ :=
      if_neg fun hfail => hfail.2 hle
    refine ⟨current, by rw [hread]; exact List.mem_singleton.mpr rfl, ?_⟩
    cases hdrop : b.bytes.drop current with
    | nil => exact List.drop_eq_nil_iff.mp hdrop
    | cons a s => rw [hdrop] at h; cases h

theorem follows_readU16 : Follows Buffer.bytes Iterator.readU16 readU16 :=
  follows_readU8.bind fun _ => follows_readU8.bind fun _ => follows_pure _

theorem follows_slowReadNtohU32 : Follows Buffer.bytes Iterator.slowReadNtohU32 readNtohU32 :=
  follows_readU8.bind fun _ => follows_readU8.bind fun _ => follows_readU8.bind fun _ =>
    follows_readU8.bind fun _ => follows_pure _

theorem length_lt_of_readNtohU32 {s : List UInt8} (h : readNtohU32 s = none) : s.length < 4 := by
  match s with
  | [] | [_] | [_, _] | [_, _, _] => simp
  | _ :: _ :: _ :: _ :: _ => cases h

theorem follows_readNtohU32 : Follows Buffer.bytes Iterator.readNtohU32 readNtohU32 := by
  constructor
  · intro b current data rest hle h
    by_cases hfast : current + 4 ≤ b.zeroArea ∨ b.zeroArea ≤ current
    · obtain ⟨⟨byte0, s₁⟩, h₀, h⟩ := Option.bind_eq_some_iff.mp h
      obtain ⟨⟨byte1, s₂⟩, h₁, h⟩ := Option.bind_eq_some_iff.mp h
      obtain ⟨⟨byte2, s₃⟩, h₂, h⟩ := Option.bind_eq_some_iff.mp h
      obtain ⟨⟨byte3, s₄⟩, h₃, h⟩ := Option.bind_eq_some_iff.mp h
      obtain ⟨rfl, rfl⟩ := Prod.mk.inj (Option.some.inj h)
      obtain ⟨_, hd₀, hs₁⟩ := Buffer.data_of_drop (cons_of_readU8 h₀).symm
      obtain ⟨_, hd₁, hs₂⟩ := Buffer.data_of_drop (hs₁.trans (cons_of_readU8 h₁).symm)
      obtain ⟨_, hd₂, hs₃⟩ := Buffer.data_of_drop (hs₂.trans (cons_of_readU8 h₂).symm)
      obtain ⟨hlt, hd₃, hs₄⟩ := Buffer.data_of_drop (hs₃.trans (cons_of_readU8 h₃).symm)
      rw [Iterator.readNtohU32, if_pos hfast, hd₀, hd₁, hd₂, hd₃]
      refine ⟨current + 4, hlt, hs₄.symm, rfl, fun i hi => ?_⟩
      simp only [List.mem_cons, List.not_mem_nil, or_false] at hi
      omega
    · rw [Iterator.readNtohU32, if_neg hfast]
      exact follows_slowReadNtohU32.value b current data rest hle h
  · intro b current hle h
    by_cases hfast : current + 4 ≤ b.zeroArea ∨ b.zeroArea ≤ current
    · have hlen := length_lt_of_readNtohU32 h
      rw [List.length_drop] at hlen
      rw [Iterator.readNtohU32, if_pos hfast]
      exact ⟨current + 3, by simp, by omega⟩
    · rw [Iterator.readNtohU32, if_neg hfast]
      exact follows_slowReadNtohU32.overrun b current hle h

theorem readMany_readU8 (size : ℕ) (s : List UInt8) : readMany readU8 size s = readBytes size s := by
  induction size generalizing s with
  | zero => simp [readMany, readBytes]
  | succ size ih =>
    cases s with
    | nil => simp [readMany, readBytes, readU8]
    | cons a s =>
      simp only [readMany, readU8, ih, readBytes, Option.bind_eq_bind, Option.bind_some,
        List.length_cons, Nat.add_le_add_iff_right, List.take_succ_cons, List.drop_succ_cons]
      split
      · rfl
      · rfl

theorem follows_read (size : ℕ) : Follows Buffer.bytes (Iterator.read size) (readBytes size) := by
  refine (follows_readU8.appendMany size []).congr fun s => ?_
  rw [readMany_readU8]
  cases readBytes size s <;> rfl

end Spec

end Ns3Routing.Codec
