import Xv6.Vm.Copy
import Xv6.Vm.Proc

/-!
# `exec`

`kernel/exec.c`, and `sys_exec` of `kernel/sysfile.c`.

The file system is seen through what `exec` asks of it.  `namei` finds the executable or does not;
the executable is a `File` with a size and blocks, where a block that `bmap` cannot give is `none`.
The reference count and the lock of its inode and the count of open transactions are part of the
state of the kernel (`Kern`), since `exec` has to give them back.

The source leaves by `goto bad` from many places.  Here every such place is a call of `bad` with
the values that `pagetable`, `sz` and `ip` have there.
-/

namespace Xv6
namespace Vm

open Bytes Program

/-! ## Reading the executable -/

/-- Block size. -/
def BSIZE : ℕ := 1024

/-- 32-bit arithmetic, of `uint`. -/
def u32 (x : ℕ) : ℕ := x % 2 ^ 32

/-- An executable: `ip->size`, and the blocks that `bmap` finds. -/
structure File where
  inum : ℕ
  size : ℕ
  block : ℕ → Option Mem

/-- The turns of `readi`.  Every turn reads a byte at least, so `fuel = n` is enough. -/
def readiFrom (f : File) : ℕ → ℕ → ℕ → List UInt8
  | 0, _, _ => []
  | fuel + 1, off, n =>
    if n = 0 then []
    else
      match f.block (off / BSIZE) with
      | none => []
      | some b =>
        let m := min n (BSIZE - off % BSIZE)
        bytesAt b (off % BSIZE) m ++ readiFrom f fuel (off + m) (n - m)

/-- `readi` into kernel memory.  Its result is the number of bytes. -/
def readi (f : File) (off n : ℕ) : List UInt8 :=
  if off > f.size ∨ u32 (off + n) < off then []
  else if off + n > f.size then readiFrom f (f.size - off) off (f.size - off)
  else readiFrom f n off n

/-- The `k`-byte field at an offset of a structure that has been read. -/
def field (bs : List UInt8) (off k : ℕ) : ℕ := load k (fun o => bs.getD o 0) off

/-- `struct elfhdr` -/
structure Elfhdr where
  magic : ℕ
  entry : ℕ
  phoff : ℕ
  phnum : ℕ

def ELFHDR_SIZE : ℕ := 64

def Elfhdr.decode (bs : List UInt8) : Elfhdr where
  magic := field bs 0 4
  entry := field bs 24 8
  phoff := field bs 32 8
  phnum := field bs 56 2

/-- `struct proghdr` -/
structure Proghdr where
  type : ℕ
  flags : ℕ
  off : ℕ
  vaddr : ℕ
  filesz : ℕ
  memsz : ℕ

def PROGHDR_SIZE : ℕ := 56

def Proghdr.decode (bs : List UInt8) : Proghdr where
  type := field bs 0 4
  flags := field bs 4 4
  off := field bs 8 8
  vaddr := field bs 16 8
  filesz := field bs 32 8
  memsz := field bs 40 8

def ELF_MAGIC : ℕ := 0x464C457F
def ELF_PROG_LOAD : ℕ := 1

/-- Map ELF permissions to PTE permission bits. -/
def flags2perm (flags : ℕ) : ℕ :=
  (if flags.testBit 0 then PTE_X else 0) ||| (if flags.testBit 1 then PTE_W else 0)

/-! ## Loading segments -/

/-- The turns of `loadseg`.  What `readi` has read is in the page even if it is too little. -/
def loadsegFrom (pagetable va : ℕ) (ip : File) (offset sz : ℕ) : ℕ → ℕ → VmM ℤ
  | 0, _ => return 0
  | turns + 1, i => do
    let pa ← walkaddr pagetable (u64 (va + i))
    if pa = 0 then panic .loadseg
    else
      let n := if sz - i < 4096 then sz - i else 4096
      let bs := readi ip (u32 (offset + i)) n
      writeBytes pa 0 bs
      if bs.length ≠ n then return -1
      else loadsegFrom pagetable va ip offset sz turns (i + 4096)

/-- Load an ELF program segment into `pagetable` at `va`. -/
def loadseg (pagetable va : ℕ) (ip : File) (offset sz : ℕ) : VmM ℤ :=
  loadsegFrom pagetable va ip offset sz ((sz + 4095) / 4096) 0

/-- The loop over the program headers, `n` of them from offset `off` on: whether it came to its end,
and the size of the image then.  `off` is an `int` that is passed as a `uint`, so only its bits
matter. -/
def loadSegments (L : Layout) (ip : File) (pagetable : ℕ) : ℕ → ℕ → ℕ → VmM (Bool × ℕ)
  | 0, _, sz => return (true, sz)
  | n + 1, off, sz =>
    let bs := readi ip off PROGHDR_SIZE
    let ph := Proghdr.decode bs
    if bs.length ≠ PROGHDR_SIZE then return (false, sz)
    else if ph.type ≠ ELF_PROG_LOAD then loadSegments L ip pagetable n (u32 (off + PROGHDR_SIZE)) sz
    else if ph.memsz < ph.filesz then return (false, sz)
    else if u64 (ph.vaddr + ph.memsz) < ph.vaddr then return (false, sz)
    else if ph.vaddr % 4096 ≠ 0 then return (false, sz)
    else do
      let sz1 ← uvmalloc L pagetable sz (u64 (ph.vaddr + ph.memsz)) (flags2perm ph.flags)
      if sz1 = 0 then return (false, sz)
      else
        let r ← loadseg pagetable ph.vaddr ip (u32 ph.off) (u32 ph.filesz)
        if r < 0 then return (false, sz1)
        else loadSegments L ip pagetable n (u32 (off + PROGHDR_SIZE)) sz1

/-! ## Arguments -/

/-- `sp -= n; sp -= sp % 16`. -/
def pushDown (sp n : ℕ) : ℕ :=
  let sp := u64 (sp + 2 ^ 64 - n)
  sp - sp % 16

/-- Copy the argument strings into the new stack, from `sp` down: the final `sp`, and the addresses
of the strings. -/
def pushArgs (L : Layout) (ppt psz pagetable stackbase : ℕ) :
    List ℕ → ℕ → List ℕ → VmM (Option (ℕ × List ℕ))
  | [], sp, ustack => return some (sp, ustack)
  | arg :: argv, sp, ustack =>
    if ustack.length ≥ MAXARG then return none
    else do
      let m ← get
      let s := cString (m.mem arg) 4096
      let sp := pushDown sp (s.length + 1)
      if sp < stackbase then return none
      else
        let r ← copyout L ppt psz pagetable sp (s ++ [0])
        if r < 0 then return none
        else pushArgs L ppt psz pagetable stackbase argv sp (ustack ++ [sp])

/-- The eight bytes of a word. -/
def wordBytes (v : ℕ) : List UInt8 := (List.range 8).map fun j => UInt8.ofNat (v / 256 ^ j % 256)

/-- Push the strings and then the array of pointers to them: the final `sp`, and `argc`. -/
def pushArgv (L : Layout) (ppt psz pagetable sz : ℕ) (argv : List ℕ) : VmM (Option (ℕ × ℕ)) := do
  let stackbase := sz - USERSTACK * 4096
  match ← pushArgs L ppt psz pagetable stackbase argv sz [] with
  | none => return none
  | some (sp, ustack) =>
    let sp := pushDown sp ((ustack.length + 1) * 8)
    if sp < stackbase then return none
    else
      let r ← copyout L ppt psz pagetable sp ((ustack ++ [0]).flatMap wordBytes)
      if r < 0 then return none
      else return some (sp, ustack.length)

/-! ## What `exec` asks of the file system -/

def beginOp : KernM Unit := modify fun k => { k with outstanding := k.outstanding + 1 }

def endOp : KernM Unit := modify fun k => { k with outstanding := k.outstanding - 1 }

/-- The reference that `namei` returns. -/
def iget (ip : File) : KernM Unit :=
  modify fun k => { k with ref := Function.update k.ref ip.inum (k.ref ip.inum + 1) }

/-- `ilock`, once the lock is free. -/
def ilock (ip : File) : KernM Unit := do
  let k ← get
  if k.ref ip.inum < 1 then panic .ilock
  else set { k with locked := Function.update k.locked ip.inum true }

def iunlock (ip : File) : KernM Unit := do
  let k ← get
  if !k.locked ip.inum ∨ k.ref ip.inum < 1 then panic .iunlock
  else set { k with locked := Function.update k.locked ip.inum false }

def iput (ip : File) : KernM Unit :=
  modify fun k => { k with ref := Function.update k.ref ip.inum (k.ref ip.inum - 1) }

def iunlockput (ip : File) : KernM Unit := do
  iunlock ip
  iput ip

/-- `if(ip){ iunlockput(ip); end_op(); }` -/
def release : Option File → KernM Unit
  | none => return ()
  | some ip => do
    iunlockput ip
    endOp

/-- What is at the label `bad`. -/
def bad (L : Layout) (pagetable sz : ℕ) (ip : Option File) : KernM ℤ := do
  onPhys (freePagetable L pagetable sz)
  release ip
  return -1

/-! ## `kexec` -/

/-- What follows the last `/` of a path. -/
def baseName (path : List UInt8) : List UInt8 :=
  (path.reverse.takeWhile fun c => c ≠ 47).reverse

/-- Commit to the user image. -/
def commitImage (L : Layout) (i : Fin NPROC) (path : List UInt8) (pagetable sz entry sp : ℕ) :
    KernM Unit := do
  let p ← getProc i
  onPhys (setReg p.trapframe A1 sp)
  modifyProc i fun p => { p with name := safestrcpy p.name (baseName path) }
  modifyProc i fun p => { p with pagetable := pagetable, sz := sz }
  onPhys (setReg p.trapframe EPC entry)
  onPhys (setReg p.trapframe SP sp)
  onPhys (procFreepagetable L p.pagetable p.sz)

/-- `kexec`, once the executable is loaded: the stack, the arguments, the commit. -/
def kexecStack (L : Layout) (i : Fin NPROC) (path : List UInt8) (argv : List ℕ)
    (pagetable sz entry : ℕ) : KernM ℤ := do
  let p ← getProc i
  let sz := pgRoundUp sz
  let sz1 ← onPhys (uvmalloc L pagetable sz (u64 (sz + (USERSTACK + 1) * 4096)) PTE_W)
  if sz1 = 0 then bad L pagetable sz none
  else
    onPhys (uvmclear pagetable (sz1 - (USERSTACK + 1) * 4096))
    match ← onPhys (pushArgv L p.pagetable p.sz pagetable sz1 argv) with
    | none => bad L pagetable sz1 none
    | some (sp, argc) =>
      commitImage L i path pagetable sz1 entry sp
      return argc

/-- `kexec` by process `i`, where `namei` finds files.  The pages `argv` hold the arguments. -/
def kexec (L : Layout) (namei : List UInt8 → Option File) (i : Fin NPROC) (path : List UInt8)
    (argv : List ℕ) : KernM ℤ := do
  beginOp
  match namei path with
  | none =>
    endOp
    return -1
  | some ip =>
    iget ip
    ilock ip
    let bs := readi ip 0 ELFHDR_SIZE
    let elf := Elfhdr.decode bs
    if bs.length ≠ ELFHDR_SIZE then bad L 0 0 (some ip)
    else if elf.magic ≠ ELF_MAGIC then bad L 0 0 (some ip)
    else
      let p ← getProc i
      let pagetable ← onPhys (procPagetable L p.trapframe)
      if pagetable = 0 then bad L 0 0 (some ip)
      else
        let (ok, sz) ← onPhys (loadSegments L ip pagetable elf.phnum (u32 elf.phoff) 0)
        if !ok then bad L pagetable sz (some ip)
        else
          iunlockput ip
          endOp
          kexecStack L i path argv pagetable sz elf.entry

/-! ## `sys_exec` -/

/-- Maximum file path name. -/
def MAXPATH : ℕ := 128

/-- Fetch the word at `addr` from a process. -/
def fetchaddr (L : Layout) (pagetable sz addr : ℕ) : VmM (Option ℕ) :=
  if addr ≥ sz ∨ u64 (addr + 8) > sz then return none
  else do
    match ← copyin L pagetable sz pagetable addr 8 with
    | none => return none
    | some bs => return some (field bs 0 8)

/-- The loop of `sys_exec` that fetches the arguments, from the `i`-th on: whether it came to the
null pointer, and the pages it has allocated. -/
def fetchArgs (L : Layout) (pagetable sz uargv : ℕ) : ℕ → ℕ → VmM (Bool × List ℕ)
  | 0, _ => return (false, [])
  | n + 1, i => do
    match ← fetchaddr L pagetable sz (u64 (uargv + 8 * i)) with
    | none => return (false, [])
    | some uarg =>
      if uarg = 0 then return (true, [])
      else
        let page ← kalloc
        if page = 0 then return (false, [])
        else
          let (ok, s) ← copyinstr pagetable uarg 4096
          writeBytes page 0 s
          if !ok then return (false, [page])
          else
            let (ok, pages) ← fetchArgs L pagetable sz uargv n (i + 1)
            return (ok, page :: pages)

/-- `kfree` of the arguments. -/
def freeArgs (L : Layout) : List ℕ → VmM Unit
  | [] => return ()
  | page :: pages => do
    kfree L page
    freeArgs L pages

/-- `sys_exec` by process `i`, with the user addresses of the path and of the argument array. -/
def sysExec (L : Layout) (namei : List UInt8 → Option File) (i : Fin NPROC) (upath uargv : ℕ) :
    KernM ℤ := do
  let p ← getProc i
  let (ok, path) ← onPhys (copyinstr p.pagetable upath MAXPATH)
  if !ok then return -1
  else
    let (ok, argv) ← onPhys (fetchArgs L p.pagetable p.sz uargv MAXARG 0)
    if ok then
      let ret ← kexec L namei i path.dropLast argv
      onPhys (freeArgs L argv)
      return ret
    else
      onPhys (freeArgs L argv)
      return -1

end Vm
end Xv6
