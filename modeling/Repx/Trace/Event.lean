import Mathlib.Data.List.Basic
import Repx.Foundation.ByteString

/-! # Traced events

Process lifetimes, executable images within a lifetime, observed file
identities, and the high-level events a trace consists of.
-/
namespace Repx.Trace
open ByteString Std

/-- One kernel process lifetime; the generation tells reused PIDs apart. -/
structure ProcessLifetime where
  pid : UInt32
  generation : UInt32
deriving DecidableEq, Repr

/-- A specific executable image within a process lifetime. -/
structure ProcessInstance where
  lifetime : ProcessLifetime
  execEpoch : UInt32
deriving DecidableEq, Repr

/-- A descriptor slot of one process lifetime. -/
structure Descriptor where
  lifetime : ProcessLifetime
  fd : Int
deriving DecidableEq, Repr

section Orders

private def lifetimeCmp : ProcessLifetime → ProcessLifetime → Ordering :=
  compareLex (compareOn (·.pid)) (compareOn (·.generation))

instance : Ord ProcessLifetime := ⟨lifetimeCmp⟩

instance : TransOrd ProcessLifetime := inferInstanceAs (TransCmp (compareLex _ _))

theorem compare_lifetime (a b : ProcessLifetime) :
    compare a b = (compare a.pid b.pid).then (compare a.generation b.generation) := rfl

instance : LawfulEqOrd ProcessLifetime where
  compare_self := ReflCmp.compare_self
  eq_of_compare {a b} h := by
    rw [compare_lifetime,Ordering.then_eq_eq] at h
    rcases a with ⟨p,g⟩
    rcases b with ⟨p',g'⟩
    obtain rfl : p = p' := LawfulEqOrd.eq_of_compare h.1
    obtain rfl : g = g' := LawfulEqOrd.eq_of_compare h.2
    rfl

private def instanceCmp : ProcessInstance → ProcessInstance → Ordering :=
  compareLex (compareOn (·.lifetime)) (compareOn (·.execEpoch))

instance : Ord ProcessInstance := ⟨instanceCmp⟩

instance : TransOrd ProcessInstance := inferInstanceAs (TransCmp (compareLex _ _))

theorem compare_instance (a b : ProcessInstance) :
    compare a b = (compare a.lifetime b.lifetime).then (compare a.execEpoch b.execEpoch) := rfl

instance : LawfulEqOrd ProcessInstance where
  compare_self := ReflCmp.compare_self
  eq_of_compare {a b} h := by
    rw [compare_instance,Ordering.then_eq_eq] at h
    rcases a with ⟨l,e⟩
    rcases b with ⟨l',e'⟩
    obtain rfl : l = l' := LawfulEqOrd.eq_of_compare h.1
    obtain rfl : e = e' := LawfulEqOrd.eq_of_compare h.2
    rfl

private def descriptorCmp : Descriptor → Descriptor → Ordering :=
  compareLex (compareOn (·.lifetime)) (compareOn (·.fd))

instance : Ord Descriptor := ⟨descriptorCmp⟩

instance : TransOrd Descriptor := inferInstanceAs (TransCmp (compareLex _ _))

theorem compare_descriptor (a b : Descriptor) :
    compare a b = (compare a.lifetime b.lifetime).then (compare a.fd b.fd) := rfl

instance : LawfulEqOrd Descriptor where
  compare_self := ReflCmp.compare_self
  eq_of_compare {a b} h := by
    rw [compare_descriptor,Ordering.then_eq_eq] at h
    rcases a with ⟨l,f⟩
    rcases b with ⟨l',f'⟩
    obtain rfl : l = l' := LawfulEqOrd.eq_of_compare h.1
    obtain rfl : f = f' := LawfulEqOrd.eq_of_compare h.2
    rfl

end Orders

/-- What was seen at a path: contents, or a path hash when there are none. -/
inductive FileObservation where
  | content (hash : Str)
  | missing (pathHash : Str)
  | unreadable (pathHash : Str)
  | nonRegular (pathHash : Str)
deriving DecidableEq, Repr

namespace FileObservation

def identity : FileObservation → Str
  | content hash => hash
  | missing pathHash => utf8 "missing:" ++ pathHash
  | unreadable pathHash => utf8 "unreadable:" ++ pathHash
  | nonRegular pathHash => utf8 "non-regular:" ++ pathHash

def contentHash : FileObservation → Option Str
  | content hash => some hash
  | _ => none

end FileObservation

inductive TracedEvent where
  | exec (process : ProcessInstance) (observation : FileObservation)
  | fork (parent child : ProcessInstance)
  | fileOpen (process : ProcessInstance) (path : Str) (flags : UInt32) (fd : Int) (external : Bool)
      (observation : FileObservation)
  | fileClose (process : ProcessInstance) (fd : Int) (path : Option Str) (external : Bool)
      (observation : Option FileObservation)
  | fileMmap (process : ProcessInstance) (fd : Int) (prot flags : UInt32) (path : Option Str)
      (external : Bool) (observation : Option FileObservation)
  | fileRename (process : ProcessInstance) (fromPath toPath : Str) (flags : UInt32) (external : Bool)
      (observation : FileObservation)
  | fileUnlink (process : ProcessInstance) (path : Str) (flags : UInt32) (external : Bool)
      (observation : FileObservation)
  | exit (process : ProcessInstance) (exitCode : Int)
deriving DecidableEq, Repr

/-- `O_ACCMODE` of the open flags. -/
def accessMode (flags : UInt32) : UInt32 := flags &&& 3

def canRead (flags : UInt32) : Bool := accessMode flags != 1

def canWrite (flags : UInt32) : Bool := accessMode flags != 0

/-- Only a shared writable mapping writes back to the file. -/
def mapWrites (prot flags : UInt32) : Bool := (prot &&& 2 != 0) && (flags &&& 1 != 0)

end Repx.Trace
