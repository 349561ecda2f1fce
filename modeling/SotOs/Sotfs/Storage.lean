import SotOs.Lib.Overlay

/-! The storage backend behind the write-ahead log and the block store (`sotfs_storage_t`). -/

namespace SotOs.Sotfs

open Overlay

structure Fault where
  written : ℕ
  rc : ℤ
  neg : rc < 0

theorem eio_neg : (-5 : ℤ) < 0 := by decide

structure Storage where
  bytes : ℕ → UInt8
  capacity : ℕ
  faults : List (Option Fault)

def Storage.writeBlock (s : Storage) (offset : ℕ) (buf : List UInt8) : Storage × ℤ :=
  if s.capacity < offset + buf.length then (s, -28)
  else match s.faults with
    | some f :: faults =>
      ({ s with bytes := write s.bytes offset (buf.take f.written), faults }, f.rc)
    | _ =>
      ({ s with bytes := write s.bytes offset buf, faults := s.faults.tail }, buf.length)

def Storage.readBlock (s : Storage) (offset len : ℕ) : Option (List UInt8) :=
  if s.capacity < offset + len then none else some (read s.bytes offset len)

def Storage.Sound (s : Storage) : Prop := s.faults = []

theorem Storage.writeBlock_sound {s : Storage} (hs : s.Sound) {offset : ℕ} {buf : List UInt8}
    (hcap : offset + buf.length ≤ s.capacity) :
    s.writeBlock offset buf = ({ s with bytes := write s.bytes offset buf }, (buf.length : ℤ)) := by
  unfold Sound at hs
  rw [writeBlock, if_neg (Nat.not_lt.mpr hcap), hs]
  rfl

end SotOs.Sotfs
