import RknpuDriver.Lib.Memory
import RknpuDriver.Mem.Unwind

/-! # The arguments of a MEM_CREATE

`rknpu_ioctl` looks at the number of a command only. The size that the command says its arguments
have is how many bytes `rknpu_mem_create_ioctl` copies in and out, whatever the size of its
`struct rknpu_mem_create` is; what a smaller size leaves out of the struct it clears. Addresses of
user memory are relative to the argument of the ioctl.

* `rknpuMemCreateBytes`: the ioctl with the bytes it reads and writes, over that on decoded
  arguments.
* `Extensible`: the arguments are the user's bytes as far as there is room, and what is written and
  copied out lies in them.
* `mem_create_extensible`: the sizes for which this holds.
-/

namespace RknpuDriver.Mem
open RknpuDriver.Lib
set_option autoImplicit false

/-! ## Commands -/

/-- `_IOC_NR`. -/
def iocNr (cmd : UInt32) : ℕ := (cmd &&& 0xff).toNat

/-- `_IOC_SIZE`, which has 14 bits. -/
def iocSize (cmd : UInt32) : ℕ := (cmd >>> 16 &&& 0x3fff).toNat

def rknpuAction : ℕ := 0x00
def rknpuSubmit : ℕ := 0x01
def rknpuMemCreate : ℕ := 0x02
def rknpuMemDestroy : ℕ := 0x04
def rknpuMemSync : ℕ := 0x05

inductive IoctlHandler where
  | actionIoctl
  | submitIoctl
  | memCreateIoctl
  | memDestroyIoctl
  | memSyncIoctl
  deriving DecidableEq, Repr

/-- The switch of `rknpu_ioctl`; the numbers it does not know, and MEM_MAP, are invalid. -/
def rknpuIoctl (cmd : UInt32) : Option IoctlHandler :=
  if iocNr cmd = rknpuAction then some .actionIoctl
  else if iocNr cmd = rknpuSubmit then some .submitIoctl
  else if iocNr cmd = rknpuMemCreate then some .memCreateIoctl
  else if iocNr cmd = rknpuMemDestroy then some .memDestroyIoctl
  else if iocNr cmd = rknpuMemSync then some .memSyncIoctl
  else none

/-! ## The struct -/

/-- `sizeof(struct rknpu_mem_create)`. -/
def kSize : ℕ := 48

/-- A field of the struct: `n` bytes from `offset` on. -/
def argsField (bytes : List UInt8) (offset n : ℕ) : ℕ := leNat ((bytes.drop offset).take n)

/-- `struct rknpu_mem_create`; `iommu_domain_id` is signed. -/
def decodeArgs (bytes : List UInt8) : RknpuMemCreate where
  handle := argsField bytes 0 4
  flags := argsField bytes 4 4
  size := argsField bytes 8 8
  objAddr := argsField bytes 16 8
  dmaAddr := argsField bytes 24 8
  sramSize := argsField bytes 32 8
  iommuDomainId := (BitVec.ofNat 32 (argsField bytes 40 4)).toInt
  coreMask := argsField bytes 44 4

/-- The fields that MEM_CREATE answers with, in a struct at address `a`. -/
def answer (k : Memory) (a : ℕ) (args : RknpuMemCreate) : Memory :=
  (((k.write (a + 8) (leBytes 8 args.size)).write (a + 16) (leBytes 8 args.objAddr)).write (a + 24)
    (leBytes 8 args.dmaAddr)).write a (leBytes 4 args.handle)

/-! ## Copies between the user and the struct -/

/-- How many bytes of the user's memory can be read and written; and whether the kernel refuses
to copy more bytes than the struct has, which it does where it knows its size. -/
structure UserCopy where
  checked : Bool
  readable : ℕ
  writable : ℕ
  deriving DecidableEq, Repr

namespace UserCopy
variable (c : UserCopy)

/-- The number of bytes that are not copied, of which `limit` could be. -/
def left (n limit : ℕ) : ℕ := if c.checked = true ∧ kSize < n then n else n - limit

/-- `copy_from_user` to the struct at `a`; what cannot be read is cleared. -/
def fromUser (k : Memory) (a : ℕ) (user : ℕ → UInt8) (n : ℕ) : Memory :=
  if c.checked = true ∧ kSize < n then k
  else k.write a ((List.range n).map fun j => if j < c.readable then user j else 0)

/-- `copy_to_user` from the struct at `a`. -/
def toUser (k : Memory) (a : ℕ) (user : ℕ → UInt8) (n : ℕ) : ℕ → UInt8 :=
  if c.checked = true ∧ kSize < n then user
  else fun j => if j < min n c.writable then k.byte (a + j) else user j

/-- The bytes of the kernel that `copy_to_user` reads. -/
def toUserRead (a n : ℕ) : List Segment :=
  if c.checked = true ∧ kSize < n then [] else [⟨a, min n c.writable⟩]

end UserCopy

/-! ## The ioctl -/

/-- `args` after the copy from the user and the `memset`. -/
def copiedIn (c : UserCopy) (a : ℕ) (kernel user : ℕ → UInt8) (inSize : ℕ) : Memory :=
  let k := c.fromUser (.ofBytes kernel) a user inSize
  if inSize < kSize then k.write (a + inSize) (List.replicate (kSize - inSize) 0) else k

/-- Whether MEM_CREATE gets as far as copying its arguments back. -/
def MemState.ReachesCopyOut (s : MemState) (proc : ℕ) (args : RknpuMemCreate) (o : CreateOutcome) :
    Prop :=
  o.object.isSome = true ∧ s.TakesDmaBuf proc args o ∧ o.attachErr = 0 ∧ o.mapped.isOk = true ∧
    ¬ (MemState.kernelMapping args = true ∧ o.vmapErr ≠ 0)

instance (s : MemState) (proc : ℕ) (args : RknpuMemCreate) (o : CreateOutcome) :
    Decidable (s.ReachesCopyOut proc args o) := by
  unfold MemState.ReachesCopyOut MemState.TakesDmaBuf
  infer_instance

/-- `args` are the bytes of the arguments once they are decoded, `copied` the ranges of the kernel
that were copied to the user. -/
structure ArgsRun where
  ret : ℤ
  args : Option (List UInt8)
  kernel : Memory
  user : ℕ → UInt8
  copied : List Segment
  state : MemState

/-- The outcome of a MEM_CREATE whose arguments were copied in, and `n` bytes of which it copies
back. -/
def CreateOutcome.withCopies (o : CreateOutcome) (c : UserCopy) (n : ℕ) : CreateOutcome :=
  { o with copyIn := true, copyOut := decide (c.left n c.writable = 0) }

/-- `rknpu_mem_create_ioctl`, with its `args` at the address `a`. -/
def rknpuMemCreateBytes (c : UserCopy) (s : MemState) (a : ℕ) (kernel user : ℕ → UInt8)
    (proc file : ℕ) (cmd : UInt32) (o : CreateOutcome) : ArgsRun :=
  let inSize := iocSize cmd
  if c.left inSize c.readable ≠ 0 then
    ⟨-efault, none, c.fromUser (.ofBytes kernel) a user inSize, user, [], s⟩
  else
    let k := copiedIn c a kernel user inSize
    let bytes := k.read a kSize
    let args := decodeArgs bytes
    let o := o.withCopies c inSize
    let r := s.rknpuMemCreateIoctl proc file args o
    if s.ReachesCopyOut proc args o then
      let k := answer k a r.2.1
      ⟨r.1, some bytes, k, c.toUser k a user inSize, c.toUserRead a inSize, r.2.2⟩
    else ⟨r.1, some bytes, k, user, [], r.2.2⟩

/-- The error codes of the calls are not that of success. -/
structure CreateOutcome.Proper (o : CreateOutcome) : Prop where
  get_ne : o.getErr ≠ 0
  map_ne : ∀ e, o.mapped = .error e → e ≠ 0

theorem listDmaBuf_ok {u : MemState} {file addr : ℕ} {args : RknpuMemCreate} {o : CreateOutcome}
    {b : NewBuf} (ho : o.Proper) (hok : (u.listDmaBuf file addr args o b).1 = 0) :
    o.attachErr = 0 ∧ o.mapped.isOk = true ∧
      ¬ (MemState.kernelMapping args = true ∧ o.vmapErr ≠ 0) ∧ o.copyOut = true := by
  unfold MemState.listDmaBuf at hok
  split_ifs at hok with hattach
  · exact absurd hok hattach
  · cases hmapped : o.mapped with
    | error e =>
      simp only [hmapped] at hok
      exact absurd hok (ho.map_ne e hmapped)
    | ok dmaAddr =>
      simp only [hmapped] at hok
      unfold MemState.listMapped at hok
      simp only at hok
      split_ifs at hok with hvmap hend
      · exact absurd hok hvmap.2
      · exact absurd hok (show -efault ≠ 0 by decide)
      · exact ⟨not_not.mp hattach, rfl, hvmap, by simpa using fun h => hend (Or.inl h)⟩

theorem reachesCopyOut_of_ok {s : MemState} {proc file : ℕ} {args : RknpuMemCreate}
    {o : CreateOutcome} (ho : o.Proper) (hok : (s.rknpuMemCreateIoctl proc file args o).1 = 0) :
    s.ReachesCopyOut proc args o ∧ o.copyOut = true := by
  unfold MemState.rknpuMemCreateIoctl at hok
  split_ifs at hok with hcopy
  · exact absurd hok (show -efault ≠ 0 by decide)
  have hcopy : o.copyIn = true := by simpa using hcopy
  cases hkzalloc : o.kzalloc with
  | none =>
    simp only [hkzalloc] at hok
    exact absurd hok (show -enomem ≠ 0 by decide)
  | some addr =>
    have hobject : o.object.isSome = true := by
      unfold CreateOutcome.object
      rw [if_pos hcopy, hkzalloc]
      rfl
    have htook := takeDmaBuf_took s proc addr args o
    simp only [hkzalloc] at hok
    generalize s.takeDmaBuf proc addr args o = r at htook hok
    cases htook with
    | nothing e he =>
      obtain rfl | he := he
      · exact absurd hok ho.get_ne
      · exact absurd hok he
    | noFd => exact absurd hok (show -efault ≠ 0 by decide)
    | imported e hhandle hfind =>
      obtain ⟨hattach, hmapped, hvmap, hout⟩ := listDmaBuf_ok ho hok
      refine ⟨⟨hobject, ?_, hattach, hmapped, hvmap⟩, hout⟩
      unfold MemState.TakesDmaBuf
      rw [if_pos hhandle, hfind]
      rfl
    | direct fd hhandle halloc hfd =>
      obtain ⟨hattach, hmapped, hvmap, hout⟩ := listDmaBuf_ok ho hok
      refine ⟨⟨hobject, ?_, hattach, hmapped, hvmap⟩, hout⟩
      unfold MemState.TakesDmaBuf
      rw [hhandle, if_neg (Nat.lt_irrefl 0), hfd]
      exact ⟨halloc, rfl⟩

/-! ## Sizes that fit -/

/-- The first `n` bytes of the user, and zeros up to the size of the struct. -/
def extended (user : ℕ → UInt8) (n : ℕ) : List UInt8 :=
  (List.range n).map user ++ List.replicate (kSize - n) 0

/-- The user's bytes, as far as there is room for them, are decoded if they can be read; only
bytes of the struct are written, and a success copies out no others. -/
structure Extensible (c : UserCopy) (a : ℕ) (user : ℕ → UInt8) (inSize : ℕ) (r : ArgsRun) :
    Prop where
  decoded : min inSize kSize ≤ c.readable → r.args = some (extended user (min inSize kSize))
  written : ∀ x ∈ r.kernel.written, x.Inside a kSize
  copied : r.ret = 0 → ∀ x ∈ r.copied, x.Inside a kSize

section Copies
variable {c : UserCopy} {a inSize : ℕ} {kernel user : ℕ → UInt8}

theorem fromUser_of_le (h : inSize ≤ kSize) (k : Memory) :
    c.fromUser k a user inSize =
      k.write a ((List.range inSize).map fun j => if j < c.readable then user j else 0) :=
  if_neg fun hover => Nat.not_lt_of_le h hover.2

theorem read_copiedIn (h : inSize ≤ kSize) (hread : inSize ≤ c.readable) :
    (copiedIn c a kernel user inSize).read a kSize = extended user inSize := by
  have hbytes : ((List.range inSize).map fun j => if j < c.readable then user j else 0) =
      (List.range inSize).map user := by
    refine List.map_congr_left fun j hj => if_pos ?_
    exact Nat.lt_of_lt_of_le (List.mem_range.mp hj) hread
  have hlen : ((List.range inSize).map user).length = inSize := by
    rw [List.length_map, List.length_range]
  unfold copiedIn extended
  simp only
  rw [fromUser_of_le h, hbytes]
  split_ifs with hlt
  · have happend := Memory.read_write_append (.ofBytes kernel) a ((List.range inSize).map user)
      (List.replicate (kSize - inSize) 0)
    rw [hlen, List.length_replicate, Nat.add_sub_cancel' h] at happend
    exact happend
  · have hsize : inSize = kSize := by omega
    have hwrite := Memory.read_write (.ofBytes kernel) a ((List.range inSize).map user)
    rw [hlen, hsize] at hwrite
    rw [hsize, Nat.sub_self, List.replicate_zero, List.append_nil]
    exact hwrite

theorem written_copiedIn (h : inSize ≤ kSize) :
    ∀ x ∈ (copiedIn c a kernel user inSize).written, x.Inside a kSize := by
  intro x hx
  unfold copiedIn at hx
  rw [fromUser_of_le h] at hx
  simp only at hx
  split_ifs at hx
  · simp only [Memory.written_write, Memory.written_ofBytes, List.nil_append, List.length_map,
      List.length_range, List.length_replicate, List.mem_append, List.mem_singleton] at hx
    unfold Segment.Inside
    obtain rfl | rfl := hx
    · simp only
      omega
    · simp only
      omega
  · simp only [Memory.written_write, Memory.written_ofBytes, List.nil_append, List.length_map,
      List.length_range, List.mem_singleton] at hx
    unfold Segment.Inside
    rw [hx]
    simp only
    omega

theorem written_answer {k : Memory} {args : RknpuMemCreate}
    (h : ∀ x ∈ k.written, x.Inside a kSize) :
    ∀ x ∈ (answer k a args).written, x.Inside a kSize := by
  intro x hx
  simp only [answer, Memory.written_write, length_leBytes, List.mem_append,
    List.mem_singleton] at hx
  obtain (((hx | rfl) | rfl) | rfl) | rfl := hx
  · exact h x hx
  all_goals
    unfold Segment.Inside kSize
    simp only
    omega

theorem records_fromUser {k : Memory} (hk : k.Records kernel) :
    (c.fromUser k a user inSize).Records kernel := by
  unfold UserCopy.fromUser
  split_ifs
  · exact hk
  · exact hk.write _ _

theorem records_copiedIn : (copiedIn c a kernel user inSize).Records kernel := by
  have hk := @records_fromUser c a inSize kernel user _ (Memory.records_ofBytes kernel)
  unfold copiedIn
  simp only
  split_ifs
  · exact hk.write _ _
  · exact hk

end Copies

/-- The ways through the ioctl: the copy from the user fails; what follows does not get as far as
the copy to the user; or it does. -/
inductive RanThrough (c : UserCopy) (s : MemState) (a : ℕ) (kernel user : ℕ → UInt8)
    (inSize : ℕ) : ArgsRun → Prop where
  | notCopied (h : c.left inSize c.readable ≠ 0) :
      RanThrough c s a kernel user inSize
        ⟨-efault, none, c.fromUser (.ofBytes kernel) a user inSize, user, [], s⟩
  | notAnswered (h : c.left inSize c.readable = 0) (ret : ℤ) (t : MemState) :
      RanThrough c s a kernel user inSize
        ⟨ret, some ((copiedIn c a kernel user inSize).read a kSize),
          copiedIn c a kernel user inSize, user, [], t⟩
  | answered (h : c.left inSize c.readable = 0) (ret : ℤ) (args : RknpuMemCreate) (t : MemState) :
      RanThrough c s a kernel user inSize
        ⟨ret, some ((copiedIn c a kernel user inSize).read a kSize),
          answer (copiedIn c a kernel user inSize) a args,
          c.toUser (answer (copiedIn c a kernel user inSize) a args) a user inSize,
          c.toUserRead a inSize, t⟩

section Run
variable {c : UserCopy} {s : MemState} {a proc file inSize : ℕ} {kernel user : ℕ → UInt8}
  {cmd : UInt32} {o : CreateOutcome} {r : ArgsRun}

theorem ranThrough (c : UserCopy) (s : MemState) (a : ℕ) (kernel user : ℕ → UInt8)
    (proc file : ℕ) (cmd : UInt32) (o : CreateOutcome) :
    RanThrough c s a kernel user (iocSize cmd)
      (rknpuMemCreateBytes c s a kernel user proc file cmd o) := by
  unfold rknpuMemCreateBytes
  simp only
  split_ifs with hleft hreach
  · exact .notCopied hleft
  · exact .answered (not_not.mp hleft) _ _ _
  · exact .notAnswered (not_not.mp hleft) _ _

theorem RanThrough.extensible (hr : RanThrough c s a kernel user inSize r) (h : inSize ≤ kSize) :
    Extensible c a user inSize r := by
  have hmin : min inSize kSize = inSize := Nat.min_eq_left h
  have hleft : ∀ limit, c.left inSize limit = inSize - limit := fun limit =>
    if_neg fun hover => Nat.not_lt_of_le h hover.2
  have hback : ∀ x ∈ c.toUserRead a inSize, x.Inside a kSize := by
    unfold UserCopy.toUserRead Segment.Inside
    rw [if_neg fun hover => Nat.not_lt_of_le h hover.2]
    intro x hx
    rw [List.mem_singleton.mp hx]
    simp only
    omega
  cases hr with
  | notCopied hfault =>
    rw [hleft] at hfault
    refine ⟨fun hread => ?_, ?_, fun _ x hx => nomatch hx⟩
    · omega
    · rw [fromUser_of_le h]
      intro x hx
      simp only [Memory.written_write, Memory.written_ofBytes, List.nil_append, List.length_map,
        List.length_range, List.mem_singleton] at hx
      unfold Segment.Inside
      rw [hx]
      simp only
      omega
  | notAnswered hcopied ret t =>
    refine ⟨fun hread => ?_, written_copiedIn h, fun _ x hx => nomatch hx⟩
    rw [hmin] at hread ⊢
    simp only
    rw [read_copiedIn h hread]
  | answered hcopied ret args t =>
    refine ⟨fun hread => ?_, written_answer (written_copiedIn h), fun _ => hback⟩
    rw [hmin] at hread ⊢
    simp only
    rw [read_copiedIn h hread]

theorem RanThrough.overrun (hr : RanThrough c s a kernel user inSize r)
    (hc : c.checked = false) : ⟨a, inSize⟩ ∈ r.kernel.written := by
  have hfrom : ⟨a, inSize⟩ ∈ (c.fromUser (.ofBytes kernel) a user inSize).written := by
    unfold UserCopy.fromUser
    rw [if_neg fun hover => Bool.false_ne_true (hc.symm.trans hover.1)]
    simp
  have hin : ⟨a, inSize⟩ ∈ (copiedIn c a kernel user inSize).written := by
    unfold copiedIn
    simp only
    split_ifs
    · exact List.mem_append_left _ hfrom
    · exact hfrom
  cases hr with
  | notCopied => exact hfrom
  | notAnswered => exact hin
  | answered => simp [answer, hin]

theorem RanThrough.refused (hr : RanThrough c s a kernel user inSize r)
    (hc : c.checked = true) (h : kSize < inSize) :
    r = ⟨-efault, none, .ofBytes kernel, user, [], s⟩ := by
  have hleft : c.left inSize c.readable = inSize := if_pos ⟨hc, h⟩
  cases hr with
  | notCopied =>
    unfold UserCopy.fromUser
    rw [if_pos ⟨hc, h⟩]
  | notAnswered hcopied => omega
  | answered hcopied => omega

theorem RanThrough.frame (hr : RanThrough c s a kernel user inSize r) (h : inSize ≤ kSize) :
    (∀ i, i < a ∨ a + kSize ≤ i → r.kernel.byte i = kernel i) ∧
      ∀ j, r.user j = user j ∨ j < inSize ∧ r.user j = r.kernel.byte (a + j) := by
  have hwritten := (hr.extensible h).written
  have hrecords : r.kernel.Records kernel := by
    cases hr with
    | notCopied => exact records_fromUser (Memory.records_ofBytes kernel)
    | notAnswered => exact records_copiedIn
    | answered =>
      exact (((records_copiedIn.write _ _).write _ _).write _ _).write _ _
  refine ⟨fun i hi => hrecords.frame hwritten hi, fun j => ?_⟩
  cases hr with
  | notCopied => exact Or.inl rfl
  | notAnswered => exact Or.inl rfl
  | answered hcopied ret args t =>
    simp only
    unfold UserCopy.toUser
    rw [if_neg fun hover => Nat.not_lt_of_le h hover.2]
    by_cases hj : j < min inSize c.writable
    · rw [if_pos hj]
      exact Or.inr ⟨by omega, rfl⟩
    · rw [if_neg hj]
      exact Or.inl rfl

theorem copied_of_ok (ho : o.Proper)
    (hok : (rknpuMemCreateBytes c s a kernel user proc file cmd o).ret = 0) :
    ∀ j < iocSize cmd, (rknpuMemCreateBytes c s a kernel user proc file cmd o).user j =
      (rknpuMemCreateBytes c s a kernel user proc file cmd o).kernel.byte (a + j) := by
  intro j hj
  have hproper : (o.withCopies c (iocSize cmd)).Proper := ⟨ho.get_ne, ho.map_ne⟩
  unfold rknpuMemCreateBytes at hok ⊢
  simp only at hok ⊢
  split_ifs at hok ⊢ with hleft hreach
  · exact absurd hok (show -efault ≠ 0 by decide)
  · obtain ⟨-, hout⟩ := reachesCopyOut_of_ok hproper hok
    have hleft : c.left (iocSize cmd) c.writable = 0 := of_decide_eq_true hout
    unfold UserCopy.left at hleft
    simp only
    unfold UserCopy.toUser
    split_ifs at hleft ⊢ with hover
    · omega
    · simp only
      rw [if_pos (by omega)]
  · exact absurd (reachesCopyOut_of_ok hproper hok).1 hreach

end Run

/-- **MEM_CREATE with arguments of any size** decodes the user's bytes as far as there is room for
them, and reads and writes no other byte of the kernel than those of its struct, just for the
sizes up to that of the struct; or when the user's bytes cannot be read and the kernel refuses to
copy them. -/
theorem mem_create_extensible (c : UserCopy) (s : MemState) (a : ℕ) (kernel user : ℕ → UInt8)
    (proc file : ℕ) (cmd : UInt32) (o : CreateOutcome) (hnr : iocNr cmd = rknpuMemCreate) :
    rknpuIoctl cmd = some .memCreateIoctl ∧
    ∃ r, rknpuMemCreateBytes c s a kernel user proc file cmd o = r ∧
      (Extensible c a user (iocSize cmd) r ↔
        iocSize cmd ≤ kSize ∨ c.checked = true ∧ c.readable < kSize) ∧
      (iocSize cmd ≤ kSize →
        (∀ i, i < a ∨ a + kSize ≤ i → r.kernel.byte i = kernel i) ∧
        ∀ j, r.user j = user j ∨ j < iocSize cmd ∧ r.user j = r.kernel.byte (a + j)) ∧
      (o.Proper → r.ret = 0 → ∀ j < iocSize cmd, r.user j = r.kernel.byte (a + j)) := by
  have hr := ranThrough c s a kernel user proc file cmd o
  refine ⟨?_, _, rfl, ⟨fun hext => ?_, ?_⟩, hr.frame, copied_of_ok⟩
  · unfold rknpuIoctl
    rw [hnr]
    rfl
  · by_contra hcond
    rw [not_or, not_and, Nat.not_le] at hcond
    obtain ⟨hover, hchecked⟩ := hcond
    cases hc : c.checked with
    | false =>
      have hin := hext.written _ (hr.overrun hc)
      unfold Segment.Inside at hin
      simp only at hin
      omega
    | true =>
      have hdecoded := hext.decoded
      rw [hr.refused hc hover, Nat.min_eq_right (Nat.le_of_lt hover)] at hdecoded
      have hnone := hdecoded (Nat.le_of_not_lt (hchecked hc))
      simp at hnone
  · rintro (hle | ⟨hc, hread⟩)
    · exact hr.extensible hle
    · obtain hover | hle := Nat.lt_or_ge kSize (iocSize cmd)
      · rw [hr.refused hc hover]
        refine ⟨fun hmin => ?_, fun x hx => (nomatch hx), fun _ x hx => nomatch hx⟩
        omega
      · exact hr.extensible hle

/-- The bytes of arguments that ask for a page. -/
def onePage (j : ℕ) : UInt8 := if j = 9 then 0x10 else 0

/-- A command whose arguments end before `iommu_domain_id`. -/
theorem mem_create_extensible_short :
    Extensible ⟨true, 40, 40⟩ 0x5000 onePage 40
      (rknpuMemCreateBytes ⟨true, 40, 40⟩ opened 0x5000 (fun _ => 0xaa) onePage 1 0 0xc0287202
        (created 0x1000 5)) := by
  obtain ⟨-, r, rfl, hiff, -⟩ := mem_create_extensible ⟨true, 40, 40⟩ opened 0x5000
    (fun _ => 0xaa) onePage 1 0 0xc0287202 (created 0x1000 5) (by decide)
  exact hiff.mpr (Or.inl (by decide))

/-- A command whose arguments are said to have 56 bytes: the copy goes past the struct, or, where
the kernel checks it, nothing is decoded. -/
theorem mem_create_overruns : iocNr 0xc0387202 = rknpuMemCreate ∧ iocSize 0xc0387202 = 56 ∧
    (⟨0x5000, 56⟩ ∈ (rknpuMemCreateBytes ⟨false, 56, 56⟩ opened 0x5000 (fun _ => 0xaa) onePage 1 0
        0xc0387202 (created 0x1000 5)).kernel.written ∧
      (rknpuMemCreateBytes ⟨false, 56, 56⟩ opened 0x5000 (fun _ => 0xaa) onePage 1 0 0xc0387202
        (created 0x1000 5)).kernel.byte 0x5030 ≠ 0xaa ∧
      ¬ Extensible ⟨false, 56, 56⟩ 0x5000 onePage 56 (rknpuMemCreateBytes ⟨false, 56, 56⟩ opened
        0x5000 (fun _ => 0xaa) onePage 1 0 0xc0387202 (created 0x1000 5))) ∧
    ((rknpuMemCreateBytes ⟨true, 56, 56⟩ opened 0x5000 (fun _ => 0xaa) onePage 1 0 0xc0387202
        (created 0x1000 5)).args = none ∧
      ¬ Extensible ⟨true, 56, 56⟩ 0x5000 onePage 56 (rknpuMemCreateBytes ⟨true, 56, 56⟩ opened
        0x5000 (fun _ => 0xaa) onePage 1 0 0xc0387202 (created 0x1000 5))) := by
  refine ⟨by decide, by decide, ⟨by decide +kernel, by decide +kernel, fun h => ?_⟩, by decide,
    fun h => ?_⟩
  · exact absurd (h.written ⟨0x5000, 56⟩ (by decide +kernel)) (by decide)
  · have hnone := h.decoded (by decide)
    exact absurd hnone (by decide)

end RknpuDriver.Mem
