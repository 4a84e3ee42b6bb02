import Fscq.DiskLog.Recover

/-!
# The log stack

Three layers over the log on disk. `MLog` keeps in memory the entries that are in the log on disk and applies them to
the data region when the log is full. `GLog` keeps committed transactions that are not in the log yet and flushes them
together (group commit). `LOG` keeps the writes of the active transaction. All three give access to the same logical
disk, whose block `a` is block `dataStart + a` of the physical one.
-/

namespace Fscq

open CrashLogic PaddedLog

abbrev Valumap := AddrMap Valu

def vmap0 : Valumap := ∅

def mapKeys (m : Valumap) : List Nat := m.toList.map Prod.fst

namespace LogReplay

def replayMem (log : Contents) (init : Valumap) : Valumap := log.foldl (fun m e => m.insert e.1 e.2) init

/-- Does one of the addresses occur in the map? -/
def overlap (l : List Nat) (m : Valumap) : Bool := l.any fun a => m.contains a

end LogReplay

open LogReplay

/-! ## The memory log -/

namespace MLog

structure Memstate where
  msInLog : Valumap
  msCache : CacheSt

def read (xp : LogXparams) (a : Nat) (ms : Memstate) : FProg (Memstate × Valu) :=
  match ms.msInLog[a]? with
  | some v => pure (ms, v)
  | none => do
    let (cs, v) ← Bufcache.readArray xp.dataStart a ms.msCache
    pure (⟨ms.msInLog, cs⟩, v)

def flushNoapply (xp : LogXparams) (ents : Contents) (ms : Memstate) : FProg (Memstate × Bool) := do
  let (cs, ok) ← PaddedLog.extend xp ents ms.msCache
  if ok = true then pure (⟨replayMem ents ms.msInLog, cs⟩, true)
  else pure (⟨ms.msInLog, cs⟩, false)

def apply (xp : LogXparams) (ms : Memstate) : FProg Memstate := do
  let cs ← Bufcache.writeVecs xp.dataStart ms.msInLog.toList ms.msCache
  let cs ← Bufcache.syncVecsNow xp.dataStart (mapKeys ms.msInLog) cs
  let cs ← PaddedLog.trunc xp cs
  pure ⟨vmap0, cs⟩

def flush (xp : LogXparams) (ents : Contents) (ms : Memstate) : FProg (Memstate × Bool) :=
  if ents.length = 0 then pure (ms, true)
  else do
    let (cs, na) ← PaddedLog.avail xp ms.msCache
    let ms' ← (if na < ents.length then apply xp ⟨ms.msInLog, cs⟩ else pure ⟨ms.msInLog, cs⟩)
    flushNoapply xp ents ms'

def dwrite (xp : LogXparams) (a : Nat) (v : Valu) (ms : Memstate) : FProg Memstate := do
  let ms' ← (if ms.msInLog.contains a then apply xp ms else pure ms)
  let cs' ← Bufcache.writeArray xp.dataStart a v ms'.msCache
  pure ⟨ms'.msInLog, cs'⟩

def dsync (xp : LogXparams) (a : Nat) (ms : Memstate) : FProg Memstate := do
  let cs' ← Bufcache.beginSync ms.msCache
  let cs' ← Bufcache.syncArray xp.dataStart a cs'
  let cs' ← Bufcache.endSync cs'
  pure ⟨ms.msInLog, cs'⟩

def recover (xp : LogXparams) (cs : CacheSt) : FProg Memstate := do
  let cs ← PaddedLog.recover xp cs
  let (cs, log) ← PaddedLog.read xp cs
  pure ⟨replayMem log vmap0, cs⟩

def init (xp : LogXparams) (cs : CacheSt) : FProg Memstate := do
  let cs ← PaddedLog.init xp cs
  pure ⟨vmap0, cs⟩

def dwriteVecs (xp : LogXparams) (avl : List (Nat × Valu)) (ms : Memstate) : FProg Memstate := do
  let ms' ← (if overlap (avl.map Prod.fst) ms.msInLog = true then apply xp ms else pure ms)
  let cs' ← Bufcache.writeVecs xp.dataStart avl ms'.msCache
  pure ⟨ms'.msInLog, cs'⟩

def dsyncVecs (xp : LogXparams) (al : List Nat) (ms : Memstate) : FProg Memstate := do
  let cs' ← Bufcache.syncVecsNow xp.dataStart al ms.msCache
  pure ⟨ms.msInLog, cs'⟩

def syncCache (_xp : LogXparams) (ms : Memstate) : FProg Memstate := do
  let cs ← Bufcache.syncAll ms.msCache
  pure ⟨ms.msInLog, cs⟩

end MLog

/-! ## Group commit -/

namespace GLog

structure Memstate where
  /-- The updates of all transactions in `msTxns`. -/
  msVMap : Valumap
  /-- The committed transactions that are not flushed, newest first. -/
  msTxns : List Contents
  msLL : MLog.Memstate

def read (xp : LogXparams) (a : Nat) (ms : Memstate) : FProg (Memstate × Valu) :=
  match ms.msVMap[a]? with
  | some v => pure (ms, v)
  | none => do
    let (mm', v) ← MLog.read xp a ms.msLL
    pure (⟨ms.msVMap, ms.msTxns, mm'⟩, v)

/-- Submit a committed transaction. It fails if the transaction does not fit into the log. -/
def submit (xp : LogXparams) (ents : Contents) (ms : Memstate) : FProg (Memstate × Bool) :=
  if ents.length ≤ xp.logLen then pure (⟨replayMem ents ms.msVMap, ents :: ms.msTxns, ms.msLL⟩, true)
  else pure (ms, false)

def flushallNomerge (xp : LogXparams) (ms : Memstate) : FProg Memstate := do
  let ts := ms.msTxns
  let mm ← Prog.forN (fun i mm => do
    let (mm, _) ← MLog.flush xp (ts.getD (ts.length - i - 1) []) mm
    pure mm) 0 ts.length ms.msLL
  pure ⟨vmap0, [], mm⟩

def flushall (xp : LogXparams) (ms : Memstate) : FProg Memstate :=
  if ms.msVMap.size ≤ xp.logLen then do
    let (mm, _) ← MLog.flush xp ms.msVMap.toList ms.msLL
    pure ⟨vmap0, [], mm⟩
  else flushallNomerge xp ms

def flushsync (xp : LogXparams) (ms : Memstate) : FProg Memstate := do
  let ms ← flushall xp ms
  let mm' ← MLog.apply xp ms.msLL
  pure ⟨ms.msVMap, ms.msTxns, mm'⟩

def syncCache (xp : LogXparams) (ms : Memstate) : FProg Memstate := do
  let mm' ← MLog.syncCache xp ms.msLL
  pure ⟨ms.msVMap, ms.msTxns, mm'⟩

def flushallNoop (xp : LogXparams) (ms : Memstate) : FProg Memstate := flushall xp ms

def flushsyncNoop (xp : LogXparams) (ms : Memstate) : FProg Memstate := flushsync xp ms

def dwrite' (xp : LogXparams) (a : Nat) (v : Valu) (ms : Memstate) : FProg Memstate := do
  let mm' ← MLog.dwrite xp a v ms.msLL
  pure ⟨ms.msVMap, ms.msTxns, mm'⟩

def dwrite (xp : LogXparams) (a : Nat) (v : Valu) (ms : Memstate) : FProg Memstate :=
  if ms.msVMap.contains a then do
    let ms ← flushallNoop xp ms
    dwrite' xp a v ms
  else dwrite' xp a v ms

def dwriteVecs' (xp : LogXparams) (avs : List (Nat × Valu)) (ms : Memstate) : FProg Memstate := do
  let mm' ← MLog.dwriteVecs xp avs ms.msLL
  pure ⟨ms.msVMap, ms.msTxns, mm'⟩

def dwriteVecs (xp : LogXparams) (avs : List (Nat × Valu)) (ms : Memstate) : FProg Memstate :=
  if overlap (avs.map Prod.fst) ms.msVMap = true then do
    let ms ← flushallNoop xp ms
    dwriteVecs' xp avs ms
  else dwriteVecs' xp avs ms

def dsync (xp : LogXparams) (a : Nat) (ms : Memstate) : FProg Memstate := do
  let mm' ← MLog.dsync xp a ms.msLL
  pure ⟨ms.msVMap, ms.msTxns, mm'⟩

def dsyncVecs (xp : LogXparams) (al : List Nat) (ms : Memstate) : FProg Memstate := do
  let mm' ← MLog.dsyncVecs xp al ms.msLL
  pure ⟨ms.msVMap, ms.msTxns, mm'⟩

def recover (xp : LogXparams) (cs : CacheSt) : FProg Memstate := do
  let mm ← MLog.recover xp cs
  pure ⟨vmap0, [], mm⟩

def init (xp : LogXparams) (cs : CacheSt) : FProg Memstate := do
  let mm ← MLog.init xp cs
  pure ⟨vmap0, [], mm⟩

end GLog

/-! ## Transactions -/

namespace LOG

structure Memstate where
  /-- The writes of the active transaction. -/
  msTxn : Valumap
  msLL : GLog.Memstate

def init (xp : LogXparams) (cs : CacheSt) : FProg Memstate := do
  let mm ← GLog.init xp cs
  pure ⟨vmap0, mm⟩

def begin (_xp : LogXparams) (ms : Memstate) : FProg Memstate := pure ms

def abort (_xp : LogXparams) (ms : Memstate) : FProg Memstate := pure ⟨vmap0, ms.msLL⟩

def write (_xp : LogXparams) (a : Nat) (v : Valu) (ms : Memstate) : FProg Memstate :=
  pure ⟨ms.msTxn.insert a v, ms.msLL⟩

def read (xp : LogXparams) (a : Nat) (ms : Memstate) : FProg (Memstate × Valu) :=
  match ms.msTxn[a]? with
  | some v => pure (ms, v)
  | none => do
    let (mm', v) ← GLog.read xp a ms.msLL
    pure (⟨ms.msTxn, mm'⟩, v)

/-- The source leaves `should_flushall` a parameter of the build. -/
def commit (shouldFlushall : Bool) (xp : LogXparams) (ms : Memstate) : FProg (Memstate × Bool) := do
  let (mm', r) ← GLog.submit xp ms.msTxn.toList ms.msLL
  if shouldFlushall = true then do
    let mm' ← GLog.flushallNoop xp mm'
    pure (⟨vmap0, mm'⟩, r)
  else pure (⟨vmap0, mm'⟩, r)

/-- Like `abort`, for read-only transactions. -/
def commitRo (_xp : LogXparams) (ms : Memstate) : FProg Memstate := pure ⟨vmap0, ms.msLL⟩

def dwrite (xp : LogXparams) (a : Nat) (v : Valu) (ms : Memstate) : FProg Memstate := do
  let cm' := ms.msTxn.erase a
  let mm' ← GLog.dwrite xp a v ms.msLL
  pure ⟨cm', mm'⟩

def dsync (xp : LogXparams) (a : Nat) (ms : Memstate) : FProg Memstate := do
  let mm' ← GLog.dsync xp a ms.msLL
  pure ⟨ms.msTxn, mm'⟩

def flushsync (xp : LogXparams) (ms : Memstate) : FProg Memstate := do
  let mm' ← GLog.flushsync xp ms.msLL
  pure ⟨ms.msTxn, mm'⟩

def flushall (xp : LogXparams) (ms : Memstate) : FProg Memstate := do
  let mm' ← GLog.flushall xp ms.msLL
  pure ⟨ms.msTxn, mm'⟩

def syncCache (xp : LogXparams) (ms : Memstate) : FProg Memstate := do
  let mm' ← GLog.syncCache xp ms.msLL
  pure ⟨ms.msTxn, mm'⟩

/-- Discards the active transaction. -/
def dwriteVecs (xp : LogXparams) (avl : List (Nat × Valu)) (ms : Memstate) : FProg Memstate := do
  let mm' ← GLog.dwriteVecs xp avl ms.msLL
  pure ⟨vmap0, mm'⟩

def dsyncVecs (xp : LogXparams) (al : List Nat) (ms : Memstate) : FProg Memstate := do
  let mm' ← GLog.dsyncVecs xp al ms.msLL
  pure ⟨ms.msTxn, mm'⟩

def recover (xp : LogXparams) (cs : CacheSt) : FProg Memstate := do
  let mm ← GLog.recover xp cs
  pure ⟨vmap0, mm⟩

end LOG

end Fscq
