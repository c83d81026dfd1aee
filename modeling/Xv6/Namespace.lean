import Xv6.BlockAlloc
import Xv6.Dirent
import Xv6.Machine
import Xv6.Proc

/-!
# The directory tree and the system calls on it

The part of `fs.c`, `file.c` and `sysfile.c` that makes, finds and removes
names, over the state it works on: the inodes, the table of the inodes in
memory, the open files, and of every process its current directory and its
descriptors.

The contents of a directory are its entries and those of a file only have a
size: how contents are kept in blocks is the layer below. What is left of it
here is that a directory that has to grow needs a block, which `room` says
the disk has, and that it cannot grow past `MAXFILE` blocks.

The table of inodes in memory is kept by inode number: no two entries in use
are for the same inode, so that an inode number stands for its entry. An
entry has the number of references to it and whether it was read from the
disk; the fields it then holds are those of the inode on the disk, since
every change of them is written through by `iupdate` before the inode is
unlocked. A system call runs as a whole, so no lock appears.
-/

open Function

namespace Xv6.Names

/-- Maximum major device number. -/
def NDEV : ℕ := 10

/-- The types of inodes. A free inode has type 0. -/
inductive InodeType
  | free
  | T_DIR
  | T_FILE
  | T_DEVICE
  deriving DecidableEq, Repr

/-- The value of a number stored in a `short`. -/
def short (x : ℤ) : ℤ := x.bmod (2 ^ 16)

/-- An inode: its fields, the size of a file and the entries of a directory. -/
structure Node where
  type : InodeType
  major : ℤ
  minor : ℤ
  nlink : ℤ
  size : ℕ
  ents : List Dirent
  deriving DecidableEq, Repr

/-- An open file: how many descriptors share it, and the inode it is open on. -/
structure OpenFile where
  type : FileType
  ref : ℕ
  ip : ℕ
  deriving DecidableEq, Repr

/-- The part of a process that file system calls use. -/
structure Task where
  cwd : ℕ
  ofile : Fin NOFILE → Option (Fin NFILE)

/-- The state: inodes by number, and for each whether and how often it is
referred to in memory; how many inodes are; the open files; the processes. -/
structure State where
  inode : ℕ → Node
  ref : ℕ → ℕ
  valid : ℕ → Bool
  active : ℕ
  file : Fin NFILE → OpenFile
  task : Fin NPROC → Option Task

/-- The panics of these functions. -/
inductive Panic
  | iget
  | ialloc
  | ilock
  | ilockNoType
  | dirlookup
  | dirlink
  | balloc
  | createDots
  | createDirlink
  | unlinkNlink
  | filedup
  | fileclose
  | initExiting
  deriving DecidableEq, Repr

/-- Code of the file system. -/
abbrev NameProg (α : Type) : Type := Prog Panic State α

/-! ## Inodes -/

/-- Change an inode. -/
def State.setNode (s : State) (i : ℕ) (n : Node) : State :=
  { s with inode := update s.inode i n }

/-- Change an inode in memory and write it to the disk. -/
def iupdate (i : ℕ) (f : Node → Node) : NameProg Unit :=
  Prog.modify fun s => s.setNode i (f (s.inode i))

/-- One reference more. -/
def State.grabbed (s : State) (i : ℕ) : State :=
  { s with ref := update s.ref i (s.ref i + 1) }

/-- An entry of the table is taken for an inode that has none. -/
def State.entered (s : State) (i : ℕ) : State :=
  { s with
    ref := update s.ref i 1
    valid := update s.valid i false
    active := s.active + 1 }

/-- One reference less. -/
def State.dropped (s : State) (i : ℕ) : State :=
  { s with
    ref := update s.ref i (s.ref i - 1)
    active := if s.ref i = 1 then s.active - 1 else s.active }

/-- The inode and its content are freed. -/
def State.freed (s : State) (i : ℕ) : State :=
  { s with
    inode := update s.inode i
      { s.inode i with type := .free, size := 0, ents := [] }
    valid := update s.valid i false }

/-- The inode was read from the disk. -/
def State.loaded (s : State) (i : ℕ) : State :=
  { s with valid := update s.valid i true }

/-- Find the inode in the table or enter it. -/
def iget (i : ℕ) : NameProg Unit := do
  let s ← Prog.get
  if 0 < s.ref i then Prog.modify (·.grabbed i)
  else if s.active < NINODE then Prog.modify (·.entered i)
  else Prog.panic .iget

/-- One more reference to an inode that has one. -/
def idup (i : ℕ) : NameProg Unit := Prog.modify (·.grabbed i)

/-- Read the inode from the disk if necessary. -/
def ilock (i : ℕ) : NameProg Unit := do
  let s ← Prog.get
  if s.ref i < 1 then Prog.panic .ilock
  else if s.valid i then pure ()
  else if (s.inode i).type = .free then Prog.panic .ilockNoType
  else Prog.modify (·.loaded i)

/-- Free an inode that has no links and no other references. -/
def iputFree (i : ℕ) : NameProg Unit := do
  let s ← Prog.get
  if s.ref i = 1 ∧ s.valid i = true ∧ (s.inode i).nlink = 0 then Prog.modify (·.freed i)
  else pure ()

/-- Drop a reference. -/
def iput (i : ℕ) : NameProg Unit := do
  iputFree i
  Prog.modify (·.dropped i)

/-- Allocate the first free inode. -/
def ialloc (type : InodeType) : NameProg ℕ := do
  let s ← Prog.get
  match (List.range NINODES).find? fun i => 0 < i ∧ (s.inode i).type = .free with
  | none => Prog.panic .ialloc
  | some i => do
    iupdate i fun _ => ⟨type, 0, 0, 0, 0, []⟩
    iget i
    pure i

/-! ## Directories -/

/-- Look for an entry of a directory: the inode it names, and its place. -/
def dirlookup (dp : ℕ) (name : List UInt8) : NameProg (Option (ℕ × ℕ)) := do
  let s ← Prog.get
  if (s.inode dp).type ≠ .T_DIR then Prog.panic .dirlookup
  else
    match findName (s.inode dp).ents name with
    | none => pure none
    | some k => do
      let i := ((s.inode dp).ents.getD k Dirent.zero).inum
      iget i
      pure (some (i, k))

/-- Write an entry to a directory. -/
def writeEntry (dp k : ℕ) (e : Dirent) : NameProg Unit :=
  iupdate dp fun n => { n with ents := writeSlot n.ents k e }

/-- Write a new entry to the first free place of a directory, which grows if
there is none. -/
def dirlinkWrite (room : Bool) (dp : ℕ) (name : List UInt8) (inum : ℕ) : NameProg Unit := do
  let s ← Prog.get
  let k := freeSlot (s.inode dp).ents
  if k < (s.inode dp).ents.length then writeEntry dp k (.make inum name)
  else if MAXFILE * BSIZE < (k + 1) * DIRENTSIZE then Prog.panic .dirlink
  else if room then writeEntry dp k (.make inum name)
  else Prog.panic .balloc

/-- Add an entry to a directory, unless the name is there. -/
def dirlink (room : Bool) (dp : ℕ) (name : List UInt8) (inum : ℕ) : NameProg Bool := do
  match ← dirlookup dp name with
  | some (ip, _) => do
    iput ip
    pure false
  | none => do
    dirlinkWrite room dp name inum
    pure true

/-- Has the directory no entries but its first two? -/
def isdirempty (n : Node) : Bool := (n.ents.drop 2).all fun e => e.inum = 0

/-! ## Paths -/

/-- Walk a path from an inode to which a reference is held. With `parent`,
stop one element early and return that element. -/
def namexLoop (parent : Bool) : ℕ → ℕ → List UInt8 → NameProg (Option (ℕ × List UInt8))
  | 0, _, _ => pure none
  | fuel + 1, ip, path =>
    match skipelem path with
    | none =>
      if parent then do
        iput ip
        pure none
      else pure (some (ip, []))
    | some (rest, name) => do
      ilock ip
      let s ← Prog.get
      if (s.inode ip).type ≠ .T_DIR then do
        iput ip
        pure none
      else if parent = true ∧ rest = [] then pure (some (ip, name))
      else do
        match ← dirlookup ip name with
        | none => do
          iput ip
          pure none
        | some (next, _) => do
          iput ip
          namexLoop parent fuel next rest

/-- Find the inode of a path, from the root or the current directory. Every
element has at least one byte, so the path's length bounds their number. -/
def namex (cwd : ℕ) (parent : Bool) (path : List UInt8) :
    NameProg (Option (ℕ × List UInt8)) :=
  if path.head? = some slash then do
    iget ROOTINO
    namexLoop parent (path.length + 1) ROOTINO path
  else do
    idup cwd
    namexLoop parent (path.length + 1) cwd path

/-- The inode of a path. -/
def namei (cwd : ℕ) (path : List UInt8) : NameProg (Option ℕ) := do
  let r ← namex cwd false path
  pure (r.map Prod.fst)

/-- The inode of all but the last element of a path, and that element. -/
def nameiparent (cwd : ℕ) (path : List UInt8) : NameProg (Option (ℕ × List UInt8)) :=
  namex cwd true path

/-! ## Open files -/

/-- Change an open file. -/
def State.setFile (s : State) (f : Fin NFILE) (v : OpenFile) : State :=
  { s with file := update s.file f v }

/-- Change a process. -/
def State.setTask (s : State) (p : Fin NPROC) (t : Option Task) : State :=
  { s with task := update s.task p t }

/-- Change one descriptor of a process. -/
def setFd (p : Fin NPROC) (fd : Fin NOFILE) (f : Option (Fin NFILE)) : NameProg Unit :=
  Prog.modify fun s =>
    s.setTask p ((s.task p).map fun t => { t with ofile := update t.ofile fd f })

/-- Take an open file that is not in use. -/
def filealloc : NameProg (Option (Fin NFILE)) := do
  let s ← Prog.get
  match (List.finRange NFILE).find? fun f => (s.file f).ref = 0 with
  | none => pure none
  | some f => do
    Prog.modify fun s => s.setFile f { s.file f with ref := 1 }
    pure (some f)

/-- One more descriptor for an open file. -/
def filedup (f : Fin NFILE) : NameProg Unit := do
  let s ← Prog.get
  if (s.file f).ref < 1 then Prog.panic .filedup
  else Prog.modify fun s => s.setFile f { s.file f with ref := (s.file f).ref + 1 }

/-- One descriptor less; the last one puts the inode. -/
def fileclose (f : Fin NFILE) : NameProg Unit := do
  let s ← Prog.get
  if (s.file f).ref < 1 then Prog.panic .fileclose
  else if 1 < (s.file f).ref then
    Prog.modify fun s => s.setFile f { s.file f with ref := (s.file f).ref - 1 }
  else do
    Prog.modify fun s => s.setFile f { s.file f with ref := 0, type := .FD_NONE }
    if (s.file f).type = .FD_INODE ∨ (s.file f).type = .FD_DEVICE then iput (s.file f).ip
    else pure ()

/-- The first free descriptor of a process is made to stand for a file. -/
def fdalloc (p : Fin NPROC) (f : Fin NFILE) : NameProg (Option (Fin NOFILE)) := do
  let s ← Prog.get
  match (List.finRange NOFILE).find? fun fd =>
    ((s.task p).bind fun t => t.ofile fd).isNone with
  | none => pure none
  | some fd => do
    setFd p fd (some f)
    pure (some fd)

/-! ## System calls

A path argument is `none` when it cannot be read from the process; one that
does not fit the buffer is refused as well. -/

/-- Fetch a path argument. -/
def argstr (path : Option (List UInt8)) : Option (List UInt8) :=
  path.filter fun p => p.length < MAXPATH

/-- The descriptor argument and the file it stands for. -/
def argfd (t : Task) (fd : ℤ) : Option (Fin NOFILE × Fin NFILE) :=
  if h : 0 ≤ fd ∧ fd < NOFILE then
    (t.ofile ⟨fd.toNat, by omega⟩).map fun f => (⟨fd.toNat, by omega⟩, f)
  else none

/-- Entries `.` and `..` of a new directory, and the link of its parent. -/
def createDots (room : Bool) (ip dp : ℕ) (type : InodeType) : NameProg Unit :=
  if type = .T_DIR then do
    iupdate dp fun n => { n with nlink := short (n.nlink + 1) }
    if (← dirlink room ip dot ip) = false then Prog.panic .createDots
    else if (← dirlink room ip dotdot dp) = false then Prog.panic .createDots
    else pure ()
  else pure ()

/-- Make a new inode and enter it in the directory. -/
def createNew (room : Bool) (dp : ℕ) (name : List UInt8) (type : InodeType)
    (major minor : ℤ) : NameProg (Option ℕ) := do
  let ip ← ialloc type
  ilock ip
  iupdate ip fun n => { n with major := major, minor := minor, nlink := 1 }
  createDots room ip dp type
  if (← dirlink room dp name ip) = false then Prog.panic .createDirlink
  else do
    iput dp
    pure (some ip)

/-- Make the inode of a path, or find it if it may be one that exists. -/
def create (room : Bool) (cwd : ℕ) (path : List UInt8) (type : InodeType)
    (major minor : ℤ) : NameProg (Option ℕ) := do
  match ← nameiparent cwd path with
  | none => pure none
  | some (dp, name) => do
    ilock dp
    match ← dirlookup dp name with
    | some (ip, _) => do
      iput dp
      ilock ip
      let s ← Prog.get
      if type = .T_FILE ∧ ((s.inode ip).type = .T_FILE ∨ (s.inode ip).type = .T_DEVICE) then
        pure (some ip)
      else do
        iput ip
        pure none
    | none => createNew room dp name type (short major) (short minor)

/-- The flag of `open` that makes the file. -/
def O_CREATE : ℕ := 0x200

/-- The flag of `open` that empties the file. -/
def O_TRUNC : ℕ := 0x400

/-- Open for reading only. -/
def O_RDONLY : ℕ := 0

/-- The inode that `open` opens. -/
def openInode (room : Bool) (cwd : ℕ) (path : List UInt8) (omode : ℕ) :
    NameProg (Option ℕ) :=
  if omode &&& O_CREATE ≠ 0 then create room cwd path .T_FILE 0 0
  else do
    match ← namei cwd path with
    | none => pure none
    | some ip => do
      ilock ip
      let s ← Prog.get
      if (s.inode ip).type = .T_DIR ∧ omode ≠ O_RDONLY then do
        iput ip
        pure none
      else pure (some ip)

/-- Fill in the open file and empty the inode if asked to. -/
def openFill (f : Fin NFILE) (ip omode : ℕ) : NameProg Unit := do
  let s ← Prog.get
  Prog.modify fun s => s.setFile f
    { s.file f with
      type := if (s.inode ip).type = .T_DEVICE then .FD_DEVICE else .FD_INODE
      ip := ip }
  if omode &&& O_TRUNC ≠ 0 ∧ (s.inode ip).type = .T_FILE then
    iupdate ip fun n => { n with size := 0 }
  else pure ()

/-- Give an inode a file and a descriptor. -/
def openFd (p : Fin NPROC) (ip omode : ℕ) : NameProg ℤ := do
  let s ← Prog.get
  if (s.inode ip).type = .T_DEVICE ∧
      ((s.inode ip).major < 0 ∨ NDEV ≤ (s.inode ip).major) then do
    iput ip
    pure (-1)
  else do
    match ← filealloc with
    | none => do
      iput ip
      pure (-1)
    | some f => do
      match ← fdalloc p f with
      | none => do
        fileclose f
        iput ip
        pure (-1)
      | some fd => do
        openFill f ip omode
        pure fd.val

/-- Open a file, or make and open it. -/
def sys_open (room : Bool) (p : Fin NPROC) (t : Task) (path : Option (List UInt8))
    (omode : ℕ) : NameProg ℤ :=
  match argstr path with
  | none => pure (-1)
  | some path => do
    match ← openInode room t.cwd path omode with
    | none => pure (-1)
    | some ip => openFd p ip omode

/-- Make an inode and put it. -/
def makeNode (room : Bool) (t : Task) (path : Option (List UInt8)) (type : InodeType)
    (major minor : ℤ) : NameProg ℤ :=
  match argstr path with
  | none => pure (-1)
  | some path => do
    match ← create room t.cwd path type major minor with
    | none => pure (-1)
    | some ip => do
      iput ip
      pure 0

/-- Make a directory. -/
def sys_mkdir (room : Bool) (t : Task) (path : Option (List UInt8)) : NameProg ℤ :=
  makeNode room t path .T_DIR 0 0

/-- Make a device. -/
def sys_mknod (room : Bool) (t : Task) (path : Option (List UInt8)) (major minor : ℤ) :
    NameProg ℤ :=
  makeNode room t path .T_DEVICE major minor

/-- Take back the link counted for a name that could not be made. -/
def linkBad (ip : ℕ) : NameProg ℤ := do
  ilock ip
  iupdate ip fun n => { n with nlink := short (n.nlink - 1) }
  iput ip
  pure (-1)

/-- Enter an inode, whose link is counted, under a new name. -/
def linkTo (room : Bool) (cwd ip : ℕ) (new : List UInt8) : NameProg ℤ := do
  match ← nameiparent cwd new with
  | none => linkBad ip
  | some (dp, name) => do
    ilock dp
    if (← dirlink room dp name ip) = false then do
      iput dp
      linkBad ip
    else do
      iput dp
      iput ip
      pure 0

/-- A new name for a file that has one. -/
def sys_link (room : Bool) (t : Task) (old new : Option (List UInt8)) : NameProg ℤ :=
  match argstr old, argstr new with
  | some old, some new => do
    match ← namei t.cwd old with
    | none => pure (-1)
    | some ip => do
      ilock ip
      let s ← Prog.get
      if (s.inode ip).type = .T_DIR then do
        iput ip
        pure (-1)
      else do
        iupdate ip fun n => { n with nlink := short (n.nlink + 1) }
        linkTo room t.cwd ip new
  | _, _ => pure (-1)

/-- Clear an entry; the parent loses the link a directory has to it. -/
def unlinkClear (dp ip k : ℕ) : NameProg Unit := do
  let s ← Prog.get
  writeEntry dp k Dirent.zero
  if (s.inode ip).type = .T_DIR then
    iupdate dp fun n => { n with nlink := short (n.nlink - 1) }
  else pure ()

/-- Remove an entry that was found. -/
def unlinkEntry (dp ip k : ℕ) : NameProg ℤ := do
  let s ← Prog.get
  if (s.inode ip).nlink < 1 then Prog.panic .unlinkNlink
  else if (s.inode ip).type = .T_DIR ∧ isdirempty (s.inode ip) = false then do
    iput ip
    iput dp
    pure (-1)
  else do
    unlinkClear dp ip k
    iput dp
    iupdate ip fun n => { n with nlink := short (n.nlink - 1) }
    iput ip
    pure 0

/-- Remove a name. -/
def sys_unlink (t : Task) (path : Option (List UInt8)) : NameProg ℤ :=
  match argstr path with
  | none => pure (-1)
  | some path => do
    match ← nameiparent t.cwd path with
    | none => pure (-1)
    | some (dp, name) => do
      ilock dp
      if namecmp name dot = 0 ∨ namecmp name dotdot = 0 then do
        iput dp
        pure (-1)
      else do
        match ← dirlookup dp name with
        | none => do
          iput dp
          pure (-1)
        | some (ip, k) => do
          ilock ip
          unlinkEntry dp ip k

/-- Change the current directory. -/
def sys_chdir (p : Fin NPROC) (t : Task) (path : Option (List UInt8)) : NameProg ℤ :=
  match argstr path with
  | none => pure (-1)
  | some path => do
    match ← namei t.cwd path with
    | none => pure (-1)
    | some ip => do
      ilock ip
      let s ← Prog.get
      if (s.inode ip).type ≠ .T_DIR then do
        iput ip
        pure (-1)
      else do
        iput t.cwd
        Prog.modify fun s => s.setTask p (some { t with cwd := ip })
        pure 0

/-- Give up a descriptor. -/
def sys_close (p : Fin NPROC) (t : Task) (fd : ℤ) : NameProg ℤ :=
  match argfd t fd with
  | none => pure (-1)
  | some (fd, f) => do
    setFd p fd none
    fileclose f
    pure 0

/-- A second descriptor for an open file. -/
def sys_dup (p : Fin NPROC) (t : Task) (fd : ℤ) : NameProg ℤ :=
  match argfd t fd with
  | none => pure (-1)
  | some (_, f) => do
    match ← fdalloc p f with
    | none => pure (-1)
    | some fd => do
      filedup f
      pure fd.val

/-- What `exec` does to the tree: find, lock and put the file. -/
def sys_exec (t : Task) (path : Option (List UInt8)) : NameProg ℤ :=
  match argstr path with
  | none => pure (-1)
  | some path => do
    match ← namei t.cwd path with
    | none => pure (-1)
    | some ip => do
      ilock ip
      iput ip
      pure 0

/-- The descriptors of a new process share the files of its parent. -/
def forkFiles (t : Task) : List (Fin NOFILE) → NameProg Unit
  | [] => pure ()
  | fd :: fds => do
    match t.ofile fd with
    | none => forkFiles t fds
    | some f => do
      filedup f
      forkFiles t fds

/-- A new process, in a free slot of the table. -/
def fork (t : Task) (child : Fin NPROC) : NameProg ℤ := do
  let s ← Prog.get
  if (s.task child).isSome then pure (-1)
  else do
    forkFiles t (List.finRange NOFILE)
    idup t.cwd
    Prog.modify fun s => s.setTask child (some t)
    pure child.val

/-- Close the descriptors of a process. -/
def exitFiles (p : Fin NPROC) (t : Task) : List (Fin NOFILE) → NameProg Unit
  | [] => pure ()
  | fd :: fds => do
    match t.ofile fd with
    | none => exitFiles p t fds
    | some f => do
      fileclose f
      setFd p fd none
      exitFiles p t fds

/-- The first process, which never ends. -/
def initproc : Fin NPROC := 0

/-- A process ends. -/
def exit (p : Fin NPROC) (t : Task) : NameProg ℤ :=
  if p = initproc then Prog.panic .initExiting
  else do
    exitFiles p t (List.finRange NOFILE)
    iput t.cwd
    Prog.modify fun s => s.setTask p none
    pure 0

/-! ## Runs -/

/-- The system calls, with their arguments. -/
inductive Call
  | open (path : Option (List UInt8)) (omode : ℕ)
  | mkdir (path : Option (List UInt8))
  | mknod (path : Option (List UInt8)) (major minor : ℤ)
  | link (old new : Option (List UInt8))
  | unlink (path : Option (List UInt8))
  | chdir (path : Option (List UInt8))
  | close (fd : ℤ)
  | dup (fd : ℤ)
  | exec (path : Option (List UInt8))
  | fork (child : Fin NPROC)
  | exit

/-- A process makes a call, on a disk that has room for new blocks or not. -/
structure Event where
  proc : Fin NPROC
  call : Call
  room : Bool

/-- What a call runs. -/
def Call.code (c : Call) (room : Bool) (p : Fin NPROC) (t : Task) : NameProg ℤ :=
  match c with
  | .open path omode => sys_open room p t path omode
  | .mkdir path => sys_mkdir room t path
  | .mknod path major minor => sys_mknod room t path major minor
  | .link old new => sys_link room t old new
  | .unlink path => sys_unlink t path
  | .chdir path => sys_chdir p t path
  | .close fd => sys_close p t fd
  | .dup fd => sys_dup p t fd
  | .exec path => sys_exec t path
  | .fork child => Names.fork t child
  | .exit => Names.exit p t

/-- **One system call of one process.** -/
def step (s : State) (e : Event) : Outcome State Panic :=
  match s.task e.proc with
  | none => .disabled
  | some t =>
    match e.call.code e.room e.proc t s with
    | .ok (_, s') => .next s'
    | .error err => .panic err

/-! ## The image `mkfs` makes -/

/-- The files given to `mkfs`: their names and sizes. There are inodes for
all of them and the root, and room for their names in a directory; no file
is named `.`. -/
structure Files where
  list : List (List UInt8 × ℕ)
  length_lt : list.length + 2 ≤ NINODES
  ne_dot : ∀ f ∈ list, namecmp f.1 dot ≠ 0

/-- The root directory: an entry for each file, filled up to whole blocks. -/
def Files.root (fs : Files) : List Dirent :=
  let ents := ⟨ROOTINO, strncpy dot DIRSIZ⟩ :: ⟨ROOTINO, strncpy dotdot DIRSIZ⟩ ::
    fs.list.mapIdx fun k f => ⟨k + 2, strncpy f.1 DIRSIZ⟩
  let size := (ents.length * DIRENTSIZE / BSIZE + 1) * BSIZE
  ents ++ List.replicate (size / DIRENTSIZE - ents.length) Dirent.zero

/-- The inodes of the image: the root, the files from 2 on, and free ones. -/
def Files.inode (fs : Files) (i : ℕ) : Node :=
  if i = ROOTINO then ⟨.T_DIR, 0, 0, 1, 0, fs.root⟩
  else if i < 2 then ⟨.free, 0, 0, 0, 0, []⟩
  else
    match fs.list[i - 2]? with
    | some f => ⟨.T_FILE, 0, 0, 1, f.2, []⟩
    | none => ⟨.free, 0, 0, 0, 0, []⟩

/-- **The system as it comes up** from the image: one process, at the root. -/
def boot (fs : Files) : State where
  inode := fs.inode
  ref := update (fun _ => 0) ROOTINO 1
  valid := fun _ => false
  active := 1
  file := fun _ => ⟨.FD_NONE, 0, 0⟩
  task := update (fun _ => none) initproc (some ⟨ROOTINO, fun _ => none⟩)

end Xv6.Names
