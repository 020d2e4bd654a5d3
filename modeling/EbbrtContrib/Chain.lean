import EbbrtContrib.CString

namespace EbbrtContrib.Chain

open CString

/-- The buffer chains of the messenger, with what their operations are documented to do
to the bytes of the chain. `get n` is a checked data pointer asked for `n` bytes: it
throws, here `none`, when too few remain. -/
structure IOBuf (C : Type) where
  bytes : C → List Byte
  create : List Byte → C
  appendChain : C → C → C
  advanceChain : Nat → C → C
  computeChainDataLength : C → Nat
  get : Nat → C → Option (List Byte)
  bytes_create (s : List Byte) : bytes (create s) = s
  bytes_appendChain (c d : C) : bytes (appendChain c d) = bytes c ++ bytes d
  bytes_advanceChain (n : Nat) (c : C) (h : n ≤ (bytes c).length) :
    bytes (advanceChain n c) = (bytes c).drop n
  length_eq (c : C) : computeChainDataLength c = (bytes c).length
  get_eq (n : Nat) (c : C) :
    get n c = if n ≤ (bytes c).length then some ((bytes c).take n) else none

attribute [simp] IOBuf.bytes_create IOBuf.bytes_appendChain

def advanceList : Nat → List (List Byte) → List (List Byte)
  | _, [] => []
  | n, b :: bs => if n ≤ b.length then b.drop n :: bs else [] :: advanceList (n - b.length) bs

theorem flatten_advanceList (n : Nat) (bs : List (List Byte)) :
    (advanceList n bs).flatten = bs.flatten.drop n := by
  induction bs generalizing n with
  | nil => simp [advanceList]
  | cons b bs ih =>
    unfold advanceList
    split
    · next h => simp [List.drop_append_of_le_length h]
    · next h => simp [ih, List.drop_append, List.drop_eq_nil_of_le (by omega : b.length ≤ n)]

/-- Chains as lists of buffers. -/
def listChain : IOBuf (List (List Byte)) where
  bytes := List.flatten
  create s := [s]
  appendChain c d := c ++ d
  advanceChain := advanceList
  computeChainDataLength c := c.flatten.length
  get n c := if n ≤ c.flatten.length then some (c.flatten.take n) else none
  bytes_create s := by simp
  bytes_appendChain c d := by simp
  bytes_advanceChain n c _ := flatten_advanceList n c
  length_eq _ := rfl
  get_eq _ _ := rfl

end EbbrtContrib.Chain
