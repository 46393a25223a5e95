/-!
# Buffer pools

A buffer that is given back is kept for the next one who asks, up to a number of idle buffers. Only
a buffer that has storage can be kept.
-/

namespace DdlBridge

structure Buffer where
  /-- Bytes held. -/
  size : Nat := 0
  hasStorage : Bool := true
  deriving DecidableEq, Repr

namespace Buffer

def write (b : Buffer) (bytes : Nat) : Buffer :=
  { size := b.size + bytes, hasStorage := b.hasStorage || bytes != 0 }

/-- What is left when the storage is taken away. -/
def bare : Buffer := { hasStorage := false }

end Buffer

structure BufferPool where
  capacity : Nat
  idle : Nat := 0
  deriving DecidableEq, Repr

namespace BufferPool

def maxIdle : Nat := 64

def ofCapacity (capacity : Nat) : BufferPool := { capacity := max capacity 1 }

def acquire (p : BufferPool) : BufferPool × Buffer := ({ p with idle := p.idle - 1 }, {})

def release (p : BufferPool) (b : Buffer) : BufferPool :=
  if b.hasStorage ∧ p.idle < maxIdle then { p with idle := p.idle + 1 } else p

theorem idle_release_le {p : BufferPool} (h : p.idle ≤ maxIdle) (b : Buffer) :
    (p.release b).idle ≤ maxIdle := by
  unfold release
  split
  · simp only; omega
  · exact h

end BufferPool

end DdlBridge
