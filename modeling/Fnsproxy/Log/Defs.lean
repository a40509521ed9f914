import Fnsproxy.Lib.Word
import Mathlib.Data.List.Basic
import Mathlib.Logic.Function.Basic

/-!
# log.c: the log and its numbered files

A name stands for an inode and an inode for its bytes, so that a descriptor keeps its file when that is
renamed. All operations on files succeed.

* `LogConf` : the settings `log_init` accepts;
* `LogFile`, `FileOp`, `LogFile.exec` : `log_files[index]` with the files of its path, and what the
  operations do to them;
* `logRotate`, `logAppend`, `logWrite` : `log_rotate` and `log_write`, as the operations they carry out;
* `LogHistory` : a log file with what has been written to it and which files have got a number.
-/

namespace Fnsproxy
open Word

/-- What `log_init` asserts of its arguments. -/
structure LogConf where
  level : Nat
  size : Nat
  number : Nat
  multi : Bool
  level_le : level ≤ 4
  size_le : size ≤ 1024 * 1024 * 1024
  number_pos : 0 < number
  number_le : number ≤ 100

/-- The names of a log: its path, and the path with a number behind it. -/
inductive LogName where
  | path
  | numbered (i : Nat)
deriving DecidableEq, Repr

/-- `log_files[index]` and the files of its path; `none` is the descriptor -1, and a name without a file. -/
structure LogFile where
  fd : Option Nat
  inode : LogName → Option Nat
  bytes : Nat → List U8
  fresh : Nat

/-- The operations on files that change something. -/
inductive FileOp where
  | rename (old new : LogName)
  | close
  /-- `open` of the path with `O_WRONLY|O_CREAT|O_APPEND`. -/
  | openAppend
  | write (record : List U8)
deriving DecidableEq, Repr

/-- A file under another name, which loses the file it had. -/
def LogFile.rename (f : LogFile) (old new : LogName) : LogFile :=
  match f.inode old with
  | none => f
  | some i => { f with inode := Function.update (Function.update f.inode new (some i)) old none }

def LogFile.exec (f : LogFile) : FileOp → LogFile
  | .rename old new => f.rename old new
  | .close => { f with fd := none }
  | .openAppend =>
    match f.inode .path with
    | some i => { f with fd := some i }
    | none =>
      { fd := some f.fresh, inode := Function.update f.inode .path (some f.fresh),
        bytes := Function.update f.bytes f.fresh [], fresh := f.fresh + 1 }
  | .write record =>
    match f.fd with
    | none => f
    | some i => { f with bytes := Function.update f.bytes i (f.bytes i ++ record) }

/-- `log_rotate`: what it returns, and the renames it makes. -/
def logRotate (c : LogConf) (f : LogFile) (fd : Nat) : Int × List FileOp :=
  if (f.bytes fd).length > c.size then
    match (List.range c.number).find? fun i => (f.inode (.numbered i)).isNone with
    | some i => (0, [.rename .path (.numbered i)])
    | none =>
      -- log file number gets maximum limit
      (-1, (List.range' 1 (c.number - 1)).map fun i => .rename (.numbered i) (.numbered (i - 1)))
  else (-1, [])

/-- What `log_write` does to the file of a record. -/
def logAppend (c : LogConf) (f : LogFile) (record : List U8) : List FileOp :=
  match f.fd with
  | none => [.openAppend, .write record]
  | some fd =>
    match logRotate c f fd with
    | (0, ops) => ops ++ [.close, .openAppend, .write record]
    | (_, ops) => ops ++ [.write record]

/-- The file a record of this level goes to. -/
def LogConf.index (c : LogConf) (level : Nat) : Nat := if c.multi then level else 0

/-- `log_write`, with the record it has put together in its buffer. -/
def logWrite (c : LogConf) (files : Nat → LogFile) (level : Nat) (record : List U8) : List (Nat × FileOp) :=
  if level > c.level then []
  else (logAppend c (files (c.index level)) record).map fun op => (c.index level, op)

/-! ## Histories -/

/-- A log file with the records written to it, and the contents of the files that have got a number, in
their order. -/
structure LogHistory extends LogFile where
  written : List (List U8)
  rotated : List (List U8)

/-- The bytes under a name. -/
def LogFile.content (f : LogFile) (name : LogName) : Option (List U8) := (f.inode name).map f.bytes

/-- The contents of the numbered files, `path.0` first. -/
def LogFile.numbered (f : LogFile) (n : Nat) : List (List U8) :=
  (List.range n).filterMap fun i => f.content (.numbered i)

def LogHistory.exec (h : LogHistory) (op : FileOp) : LogHistory where
  toLogFile := h.toLogFile.exec op
  written :=
    match op with
    | .write record => h.written ++ [record]
    | _ => h.written
  rotated :=
    match op with
    | .rename .path (.numbered _) => h.rotated ++ (h.content .path).toList
    | _ => h.rotated

/-- One operation on one of the files. -/
def execAt (hs : Nat → LogHistory) : Nat × FileOp → Nat → LogHistory
  | (index, op) => Function.update hs index ((hs index).exec op)

/-- The operations of calls of `log_write`, one after the other. -/
def logWrites (c : LogConf) : (Nat → LogHistory) → List (Nat × List U8) → List (Nat × FileOp)
  | _, [] => []
  | hs, (level, record) :: calls =>
    let ops := logWrite c (fun index => (hs index).toLogFile) level record
    ops ++ logWrites c (ops.foldl execAt hs) calls

/-- After `log_init`, with no files. -/
def logStart (_ : Nat) : LogHistory := ⟨⟨none, fun _ => none, fun _ => [], 0⟩, [], []⟩

end Fnsproxy
