import CPPCodes.Stacks.SortStack
import Mathlib.Data.List.Basic

/-!
# The disks of a tower are moved to another tower

TowerOfHanoi.cpp. A call of `TowerOfHannoi` sees the towers in other roles than its caller, and the
disks that it is to move stand on disks of the caller. So what a call needs is said of any larger
disks below (`towerOfHannoi_spec`), and a call leaves for the next one what that needs.
-/

namespace CPPCodes.Stacks

structure Disk where
  size : UInt64
deriving DecidableEq

/-- The disk is greater than `rhs`. -/
def Disk.gt (d rhs : Disk) : Bool := rhs.size < d.size

structure Tower where
  disks : Stack Disk
  index : ℤ

/-- What is thrown. -/
inductive Fault where
  /-- `PushDisk` does not put a disk on a disk that is not greater. -/
  | badAlloc
  /-- `value()` of an empty optional. -/
  | badOptionalAccess
deriving DecidableEq

/-- `Tower(index, ndisks)`. -/
def Tower.new (index : ℤ) (ndisks : ℕ) : Tower where
  disks := .new ndisks
  index := index

/-- `PushDisk`, with what `Push` returns. -/
def Tower.pushDisk (t : Tower) (d : Disk) : Except Fault (Bool × Tower) :=
  let top := t.disks.peek
  if top.all (·.gt d) then
    let (accepted, disks) := t.disks.push d
    .ok (accepted, { t with disks })
  else .error .badAlloc

/-- `MoveDisk`, with what `Push` returns. -/
def moveDisk (src dst : Tower) : Except Fault (Tower × Tower × Bool) :=
  match src.disks.peek with
  | none => .error .badOptionalAccess
  | some d => do
    let (accepted, dst) ← dst.pushDisk d
    .ok ({ src with disks := src.disks.pop }, dst, accepted)

/-- `TowerOfHannoi`: the three towers as it leaves them, and what each `Push` has returned. -/
def towerOfHannoi : ℕ → Tower → Tower → Tower → Except Fault (Tower × Tower × Tower × List Bool)
  | 0, t1, t2, t3 => .ok (t1, t2, t3, [])
  | moves + 1, t1, t2, t3 => do
    let (t1, t3, t2, before) ← towerOfHannoi moves t1 t3 t2
    let (t1, t2, accepted) ← moveDisk t1 t2
    let (t3, t2, t1, after) ← towerOfHannoi moves t3 t2 t1
    .ok (t1, t2, t3, before ++ accepted :: after)

/-- The tower `t` is `t₀` but for its disks, which are `l` from the bottom. -/
structure Tower.Has (t t₀ : Tower) (l : List Disk) : Prop where
  elements : t.disks.elements = l
  size : t.disks.size = t₀.disks.size
  index : t.index = t₀.index

variable {t t₀ src src₀ dst dst₀ : Tower} {l l' : List Disk} {d : Disk}

theorem Tower.pushDisk_spec (h : t.Has t₀ l) (hd : ∀ e ∈ l, d.size < e.size)
    (hroom : l.length < t₀.disks.size) :
    ∃ t', t.pushDisk d = .ok (true, t') ∧ t'.Has t₀ (l ++ [d]) := by
  have htop : t.disks.peek.all (·.gt d) = true := by
    rcases List.eq_nil_or_concat' l with rfl | ⟨l, e, rfl⟩
    · rw [Stack.peek, if_pos (Stack.isEmpty_nil h.elements)]
      rfl
    · rw [Stack.peek_concat h.elements]
      exact decide_eq_true (hd e (by simp))
  obtain ⟨haccepted, helements, hsize⟩ := t.disks.push_spec (by rwa [h.elements, h.size]) d
  refine ⟨{ t with disks := (t.disks.push d).2 }, ?_, ?_⟩
  · unfold pushDisk
    simp only [htop, if_true, haccepted]
  · exact {
      elements := by rw [← h.elements]; exact helements
      size := hsize.trans h.size
      index := h.index
    }

theorem moveDisk_spec (hsrc : src.Has src₀ (l ++ [d])) (hdst : dst.Has dst₀ l')
    (hd : ∀ e ∈ l', d.size < e.size) (hroom : l'.length < dst₀.disks.size) :
    ∃ src' dst', moveDisk src dst = .ok (src', dst', true) ∧ src'.Has src₀ l ∧
      dst'.Has dst₀ (l' ++ [d]) := by
  obtain ⟨dst', hpush, hdst'⟩ := Tower.pushDisk_spec hdst hd hroom
  obtain ⟨helements, hsize⟩ := Stack.pop_concat hsrc.elements
  refine ⟨{ src with disks := src.disks.pop }, dst', ?_, ?_, hdst'⟩
  · rw [moveDisk, Stack.peek_concat hsrc.elements]
    simp only [hpush]
    rfl
  · exact {
      elements := helements
      size := hsize.trans hsrc.size
      index := hsrc.index
    }

/-- The disks of `l` are smaller than each of `below`. -/
def Smaller (l below : List Disk) : Prop := ∀ d ∈ l, ∀ e ∈ below, d.size < e.size

/-- Each of the disks is smaller than those under it. -/
def Decreasing (disks : List Disk) : Prop := disks.Pairwise fun e d => d.size < e.size

theorem replicate_moves (n : ℕ) :
    List.replicate (2 ^ n - 1) true ++ true :: List.replicate (2 ^ n - 1) true =
      List.replicate (2 ^ (n + 1) - 1) true := by
  have hpos : 0 < 2 ^ n := Nat.two_pow_pos n
  rw [← List.replicate_succ, ← List.replicate_add]
  congr 1
  rw [Nat.pow_succ]
  omega

/-- The disks go from `b1` to `b2`; the third tower has them between the two calls. -/
theorem towerOfHannoi_spec : ∀ (n : ℕ) {disks b1 b2 b3 : List Disk} {t1 t2 t3 s1 s2 s3 : Tower},
    t1.Has s1 (b1 ++ disks) → t2.Has s2 b2 → t3.Has s3 b3 → disks.length = n → Decreasing disks →
    Smaller disks b1 → Smaller disks b2 → Smaller disks b3 →
    b2.length + n ≤ s2.disks.size → b3.length + n ≤ s3.disks.size →
    ∃ t1' t2' t3', towerOfHannoi n t1 t2 t3 = .ok (t1', t2', t3', List.replicate (2 ^ n - 1) true) ∧
      t1'.Has s1 b1 ∧ t2'.Has s2 (b2 ++ disks) ∧ t3'.Has s3 b3
  | 0, disks, b1, b2, b3, t1, t2, t3, s1, s2, s3, h1, h2, h3, hlen, _, _, _, _, _, _ => by
    obtain rfl := List.length_eq_zero_iff.1 hlen
    rw [List.append_nil] at h1
    exact ⟨t1, t2, t3, rfl, h1, by rwa [List.append_nil], h3⟩
  | n + 1, d :: disks, b1, b2, b3, t1, t2, t3, s1, s2, s3, h1, h2, h3, hlen, hdec, hb1, hb2, hb3,
      hroom2, hroom3 => by
    rw [List.length_cons, Nat.add_right_cancel_iff] at hlen
    obtain ⟨hd, hdisks⟩ := List.pairwise_cons.1 hdec
    obtain ⟨hdb1, hb1⟩ := List.forall_mem_cons.1 hb1
    obtain ⟨hdb2, hb2⟩ := List.forall_mem_cons.1 hb2
    obtain ⟨hdb3, hb3⟩ := List.forall_mem_cons.1 hb3
    have hroom1 : b1.length + n ≤ s1.disks.size := by
      have hfits := t1.disks.fits
      rw [h1.elements, h1.size, List.length_append, List.length_cons] at hfits
      omega
    have hover : ∀ {b : List Disk}, Smaller disks b → Smaller disks (b ++ [d]) := fun hb e he =>
      List.forall_mem_append.2 ⟨hb e he, List.forall_mem_singleton.2 (hd e he)⟩
    rw [List.append_cons] at h1
    -- the disks above `d` wait on the third tower
    obtain ⟨t1₁, t3₁, t2₁, hbefore, h1₁, h3₁, h2₁⟩ := towerOfHannoi_spec n h1 h3 h2 hlen hdisks
      (hover hb1) hb3 hb2 (by omega) (by omega)
    obtain ⟨t1₂, t2₂, hmove, h1₂, h2₂⟩ := moveDisk_spec h1₁ h2₁ hdb2 (by omega)
    -- and follow it
    obtain ⟨t3₃, t2₃, t1₃, hafter, h3₃, h2₃, h1₃⟩ := towerOfHannoi_spec n h3₁ h2₂ h1₂ hlen hdisks
      hb3 (hover hb2) hb1 (by rw [List.length_append, List.length_singleton]; omega) hroom1
    refine ⟨t1₃, t2₃, t3₃, ?_, h1₃, by rwa [List.append_cons], h3₃⟩
    unfold towerOfHannoi
    rw [hbefore]
    simp only [bind, Except.bind, hmove, hafter, replicate_moves]

/-- What moving the disks of `t1` that stand on `base` is to do. -/
structure Moved (base disks : List Disk) (t1 t2 t3 t1' t2' t3' : Tower) : Prop where
  t1 : t1'.Has t1 base
  t2 : t2'.Has t2 (t2.disks.elements ++ disks)
  t3 : t3'.Has t3 t3.disks.elements

/-- Nothing is thrown, and no `Push` is refused. -/
theorem towerOfHannoi_moves (n : ℕ) (t1 t2 t3 : Tower) (base disks : List Disk)
    (helements : t1.disks.elements = base ++ disks) (hlen : disks.length = n)
    (hdec : Decreasing disks) (hbase : Smaller disks base)
    (h2 : Smaller disks t2.disks.elements) (h3 : Smaller disks t3.disks.elements)
    (hroom2 : t2.disks.elements.length + n ≤ t2.disks.size)
    (hroom3 : t3.disks.elements.length + n ≤ t3.disks.size) :
    ∃ t1' t2' t3', towerOfHannoi n t1 t2 t3 = .ok (t1', t2', t3', List.replicate (2 ^ n - 1) true) ∧
      Moved base disks t1 t2 t3 t1' t2' t3' := by
  obtain ⟨t1', t2', t3', hrun, h1', h2', h3'⟩ := towerOfHannoi_spec n ⟨helements, rfl, rfl⟩
    ⟨rfl, rfl, rfl⟩ ⟨rfl, rfl, rfl⟩ hlen hdec hbase h2 h3 hroom2 hroom3
  exact ⟨t1', t2', t3', hrun, h1', h2', h3'⟩

/-- A tower with these disks, of the capacity of `main`. -/
def towerOf (index : ℤ) (elements : List Disk) (hfits : elements.length ≤ 3) : Tower where
  disks := { elements, size := 3, fits := hfits }
  index := index

/-- Two disks on a larger one; the tower that they go to is empty. -/
theorem towerOfHannoi_moves_two :
    ∃ t1' t2' t3', towerOfHannoi 2 (towerOf 1 [⟨3⟩, ⟨2⟩, ⟨1⟩] (by decide)) (.new 2 3)
        (towerOf 3 [⟨4⟩] (by decide)) = .ok (t1', t2', t3', List.replicate (2 ^ 2 - 1) true) ∧
      Moved [⟨3⟩] [⟨2⟩, ⟨1⟩] (towerOf 1 [⟨3⟩, ⟨2⟩, ⟨1⟩] (by decide)) (.new 2 3)
        (towerOf 3 [⟨4⟩] (by decide)) t1' t2' t3' := by
  refine towerOfHannoi_moves 2 (towerOf 1 [⟨3⟩, ⟨2⟩, ⟨1⟩] (by decide)) (.new 2 3)
    (towerOf 3 [⟨4⟩] (by decide)) [⟨3⟩] [⟨2⟩, ⟨1⟩] rfl rfl ?_ ?_ ?_ ?_ (by decide) (by decide)
  · simp [Decreasing]
  · simp [Smaller]
  · simp [Smaller, Tower.new, Stack.new]
  · simp [Smaller, towerOf]

end CPPCodes.Stacks
