/-! How a system call can fail to return. -/

set_option autoImplicit false

namespace DeisoXv6

/-- The calls of panic that the modelled code contains. -/
inductive Panic where
  | kfree
  | walk
  /-- "mappages: size" -/
  | mappages
  /-- "uvmunmap: not aligned" -/
  | uvmunmapAligned
  /-- "uvmunmap: not a leaf" -/
  | uvmunmapLeaf
  /-- "freewalk: leaf" -/
  | freewalk
  /-- "balloc: out of blocks" -/
  | balloc
  /-- "freeing free block" -/
  | bfree
  /-- "bmap: out of range" -/
  | bmap
  | ilock
  /-- "ilock: no type" -/
  | ilockType
  | iunlock
  | filedup
  | fileclose
  | fileread
  | filewrite
  /-- "log_write outside of trans" -/
  | logWrite
  /-- "sched locks" -/
  | sched
  deriving DecidableEq

inductive Fault where
  /-- A load or store through a null pointer. -/
  | nullPointer
  /-- A null inode. -/
  | nullInode
  /-- A store outside the RAM. -/
  | badAddress
  /-- An index outside an array. -/
  | outOfBounds
  /-- A loop that does not end, or a sleep that nobody ends. -/
  | endless
  /-- A sleep lock that its holder waits for. -/
  | deadlock
  | panic : Panic → Fault
  deriving DecidableEq

end DeisoXv6
