import SotOs.Lib.Machine

/-! The cursor of the framebuffer console under a stream of bytes. Pixels and colours are left out:
of a control sequence that only paints its end is kept. -/

namespace SotOs.Orch.ConsoleFb
open Machine Function

def wrap (x : ℤ) : ℤ := (x + 2 ^ 31) % 2 ^ 32 - 2 ^ 31

structure Grid where
  cols : ℤ
  rows : ℤ
  fits : (0 < cols ∧ cols < 2 ^ 27) ∧ 0 < rows ∧ rows < 2 ^ 27

inductive Esc
  | ground | escape | csi

structure Console where
  cx : ℤ := 0
  cy : ℤ := 0
  esc : Esc := .ground
  nparam : ℕ := 0
  params : ℕ → Int32 := fun _ => 0

variable (g : Grid)

def newline (s : Console) : Console :=
  let next := wrap (s.cy + 1)
  { s with cx := 0, cy := if g.rows ≤ next then g.rows - 1 else next }

def advance (s : Console) (next : ℤ) : Console :=
  if g.cols ≤ next then newline g s else { s with cx := next }

variable (size pos n : ℤ)

def back : ℤ :=
  let next := wrap (pos - if n = 0 then 1 else n)
  if next < 0 then 0 else next

def clampEnd (next : ℤ) : ℤ := if size ≤ next then size - 1 else next

def forth : ℤ := clampEnd size (wrap (pos + if n = 0 then 1 else n))

def home : ℤ := clampEnd size (if n = 0 then 0 else wrap (n - 1))

def Console.col (s : Console) : Int32 := if 1 ≤ s.nparam then s.params 1 else 0

def command (s : Console) (c : UInt8) : Console :=
  let n := (s.params 0).toInt
  if c = 0x4a then if n = 2 then { s with cx := 0, cy := 0 } else s
  else if c = 0x41 then { s with cy := back s.cy n }
  else if c = 0x42 then { s with cy := forth g.rows s.cy n }
  else if c = 0x43 then { s with cx := forth g.cols s.cx n }
  else if c = 0x44 then { s with cx := back s.cx n }
  else if c = 0x48 then { s with cy := home g.rows n, cx := home g.cols s.col.toInt }
  else s

def plain (s : Console) (c : UInt8) : Console :=
  if c = 0x1b then { s with esc := .escape }
  else if c = 0x0a then newline g s
  else if c = 0x0d then { s with cx := 0 }
  else if c = 0x08 then if 0 < s.cx then { s with cx := s.cx - 1 } else s
  else if c = 0x09 then advance g s (wrap (s.cx + 8) / 8 * 8)
  else if 0x20 ≤ c ∧ c < 0x7f then advance g s (wrap (s.cx + 1))
  else s

def consoleFbPutc (s : Console) (c : UInt8) : Console × Unit :=
  (match s.esc with
  | .escape =>
    if c = 0x5b then { s with esc := .csi, nparam := 0, params := update s.params 0 0 }
    else { s with esc := .ground }
  | .csi =>
    if 0x30 ≤ c ∧ c ≤ 0x39 then
      { s with params :=
          update s.params s.nparam (s.params s.nparam * 10 + (c - 0x30).toUInt32.toInt32) }
    else if c = 0x3b then
      if s.nparam < 7 then
        { s with nparam := s.nparam + 1, params := update s.params (s.nparam + 1) 0 }
      else s
    else { command g s c with esc := .ground }
  | .ground => plain g s c, ())

def Within : Prop := 0 ≤ pos ∧ pos < size

def InGrid (s : Console) : Prop := Within g.cols s.cx ∧ Within g.rows s.cy ∧ s.nparam < 8

def Takes (s : Console) (c : UInt8) : Prop :=
  let n := (s.params 0).toInt
  (c = 0x41 → ¬(g.rows ≤ s.cy - n ∧ s.cy - n < 2 ^ 31)) ∧
  (c = 0x42 → Within (2 ^ 31) (s.cy + n)) ∧
  (c = 0x43 → Within (2 ^ 31) (s.cx + n)) ∧
  (c = 0x44 → ¬(g.cols ≤ s.cx - n ∧ s.cx - n < 2 ^ 31)) ∧
  (c = 0x48 → (0 ≤ n ∨ n = -2 ^ 31) ∧ (0 ≤ s.col.toInt ∨ s.col.toInt = -2 ^ 31))

section
variable {size pos : ℤ} (hsize : size < 2 ^ 27) (p : Int32)
include hsize

theorem back_within (h : Within size pos) :
    Within size (back pos p.toInt) ↔ ¬(size ≤ pos - p.toInt ∧ pos - p.toInt < 2 ^ 31) := by
  have hlo := p.le_toInt
  have hhi := p.toInt_lt
  simp only [Within, back, wrap] at *
  split_ifs <;> omega

theorem forth_within (h : Within size pos) :
    Within size (forth size pos p.toInt) ↔ Within (2 ^ 31) (pos + p.toInt) := by
  have hlo := p.le_toInt
  have hhi := p.toInt_lt
  simp only [Within, forth, clampEnd, wrap] at *
  split_ifs <;> omega

theorem home_within (h : 0 < size) :
    Within size (home size p.toInt) ↔ 0 ≤ p.toInt ∨ p.toInt = -2 ^ 31 := by
  have hlo := p.le_toInt
  have hhi := p.toInt_lt
  simp only [Within, home, clampEnd, wrap] at *
  split_ifs <;> omega

end

variable {g} {s : Console} {c : UInt8}

theorem newline_inGrid (h : InGrid g s) : InGrid g (newline g s) := by
  have hfits := g.fits
  simp only [InGrid, Within, newline, wrap] at *
  split_ifs <;> omega

theorem advance_inGrid {next : ℤ} (h : InGrid g s) (hnext : 0 ≤ next) :
    InGrid g (advance g s next) := by
  rw [advance]
  split_ifs with hcols
  · exact newline_inGrid h
  · exact ⟨⟨hnext, Int.not_le.mp hcols⟩, h.2⟩

theorem plain_inGrid (h : InGrid g s) : InGrid g (plain g s c) := by
  have hfits := g.fits
  obtain ⟨⟨hlo, hhi⟩, hrest⟩ := id h
  unfold plain
  split_ifs
  · exact h
  · exact newline_inGrid h
  · exact ⟨⟨le_rfl, hfits.1.1⟩, hrest⟩
  · exact ⟨⟨by dsimp only; omega, by dsimp only; omega⟩, hrest⟩
  · exact h
  · exact advance_inGrid h (by rw [wrap]; omega)
  · exact advance_inGrid h (by rw [wrap]; omega)
  · exact h

theorem command_inGrid (h : InGrid g s) : InGrid g (command g s c) ↔ Takes g s c := by
  obtain ⟨⟨hcols, hcols'⟩, hrows, hrows'⟩ := g.fits
  obtain ⟨hx, hy, hindex⟩ := id h
  simp only [command, Takes]
  split_ifs with hJ h2 hA hB hC hD hH
  · simp [InGrid, Within, *]
  · simp [hJ, h]
  · simp [InGrid, hA, hx, hindex, back_within hrows' _ hy]
  · simp [InGrid, hB, hx, hindex, forth_within hrows' _ hy]
  · simp [InGrid, hC, hy, hindex, forth_within hcols' _ hx]
  · simp [InGrid, hD, hy, hindex, back_within hcols' _ hx]
  · simp [InGrid, hH, hindex, home_within hrows' _ hrows, home_within hcols' _ hcols, and_comm]
  · simp [*]

theorem putc_inGrid (h : InGrid g s) :
    InGrid g (consoleFbPutc g s c).1 ↔ (s.esc = .csi → Takes g s c) := by
  unfold consoleFbPutc
  cases s.esc with
  | ground => simpa using plain_inGrid h
  | escape =>
    simp only [reduceCtorEq, false_implies, iff_true]
    split_ifs
    · exact ⟨h.1, h.2.1, Nat.zero_lt_succ 7⟩
    · exact h
  | csi =>
    rw [forall_prop_of_true rfl]
    have hidle : c ≤ 0x3b → Takes g s c := fun hc => by
      refine ⟨?_, ?_, ?_, ?_, ?_⟩ <;> exact fun hletter => absurd (hletter ▸ hc) (by decide)
    dsimp only
    split_ifs with hdigit hsep hroom
    · exact iff_of_true h (hidle (UInt8.le_trans hdigit.2 (by decide)))
    · exact iff_of_true ⟨h.1, h.2.1, Nat.succ_lt_succ hroom⟩ (hidle (by rw [hsep]; decide))
    · exact iff_of_true h (hidle (by rw [hsep]; decide))
    · exact command_inGrid h

/-- The cursor stays in the grid exactly if every cursor command of the bytes comes with parameters
that it takes. -/
theorem cursor_inside_iff (g : Grid) (bytes : List UInt8) :
    (∀ k, InGrid g (exec (consoleFbPutc g) {} (bytes.take k))) ↔
      ∀ e ∈ trace (consoleFbPutc g) {} bytes, e.pre.esc = .csi → Takes g e.pre e.input := by
  apply always_iff (consoleFbPutc g) (P := InGrid g)
    (Q := fun e => e.pre.esc = .csi → Takes g e.pre e.input)
  · exact fun s c h => putc_inGrid h
  · exact ⟨⟨le_rfl, g.fits.1.1⟩, ⟨le_rfl, g.fits.2.1⟩, by decide⟩

theorem far_up_leaves : ∃ (g : Grid) (bytes : List UInt8),
    ¬InGrid g (exec (consoleFbPutc g) {} bytes) := by
  refine ⟨⟨80, 50, by decide⟩,
    [0x1b, 0x5b, 0x33, 0x30, 0x30, 0x30, 0x30, 0x30, 0x30, 0x30, 0x30, 0x30, 0x41], ?_⟩
  unfold InGrid Within
  decide +kernel

end SotOs.Orch.ConsoleFb
