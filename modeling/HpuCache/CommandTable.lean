import HpuCache.ServerState

/-! A part of the command table, and an environment in which nothing is refused.
They are what the concrete runs of the development are evaluated with. -/
namespace HpuCache.CommandTable
open ByteText KeyedDict CommandCache ServerState

def textGet : Bytes := [103,101,116]
def textSet : Bytes := [115,101,116]
def textAppend : Bytes := [97,112,112,101,110,100]
def textIncr : Bytes := [105,110,99,114]
def textMset : Bytes := [109,115,101,116]
def textMulti : Bytes := [109,117,108,116,105]
def textExec : Bytes := [101,120,101,99]
def textDiscard : Bytes := [100,105,115,99,97,114,100]

def tableEntry (name : Bytes) (proc : Proc) (arity : Int) (write : Bool) (firstkey : Nat) (lastkey : Int)
    (keystep : Nat) : RedisCommand :=
  ⟨name,proc,arity,write,write,false,false,false,false,false,false,none,none,firstkey,lastkey,keystep⟩

def getEntry : RedisCommand := tableEntry textGet .other 2 false 1 1 1
def setEntry : RedisCommand := tableEntry textSet .other (-3) true 1 1 1
def appendEntry : RedisCommand := tableEntry textAppend .other 3 true 1 1 1
def incrEntry : RedisCommand := tableEntry textIncr .other 2 true 1 1 1
def msetEntry : RedisCommand := tableEntry textMset .other (-3) true 1 (-1) 2
def multiEntry : RedisCommand :=
  { tableEntry textMulti .multi 1 false 0 0 0 with stale := true, loading := true }
def execEntry : RedisCommand :=
  { tableEntry textExec .exec 1 false 0 0 0 with stale := true, loading := true }
def discardEntry : RedisCommand :=
  { tableEntry textDiscard .discard 1 false 0 0 0 with stale := true, loading := true }

def redisCommandTable : List RedisCommand :=
  [getEntry,setEntry,appendEntry,incrEntry,msetEntry,multiEntry,execEntry,discardEntry]

def lookupCommand (name : Bytes) : Option RedisCommand :=
  redisCommandTable.find? (fun cmd => strcasecmpEqual cmd.name name)

instance ticksPositive : NeZero 1000 := ⟨by decide⟩

def clock (n : Fin 1000) : Ustime := ⟨1700000000000000 + n,by omega⟩

def calm (now : Ustime) : Env where
  clusterEnabled := true
  commands := lookupCommand
  defaultUserOpen := true
  aclCheckAllPerm := fun _ _ _ => true
  noRedirection := false
  allowReadsWhenDown := false
  lookupKeyRead := fun _ => true
  ustime := now
  syncOrder := .asStored
  writeOrder := .asStored
  draws := [0]
  rand := 0
  stack := 0
  maxmemory := false
  evictFail := false
  currentClientFreed := false
  diskError := .none
  masterhost := false
  replMinSlavesToWrite := 0
  replMinSlavesMaxLag := 0
  replGoodSlavesCount := 0
  masterConnected := true
  serveStaleData := true
  loading := false
  luaTimedout := false
  clientPause := .off

def Exit.calls : Exit → Option (List Bytes)
  | .called _ argv => some argv
  | _ => none

def Exit.answer : Exit → Option Redirection
  | .redirected answer => some answer
  | _ => none

def letterK : Bytes := [107]
def letterA : Bytes := [97]
def letterB : Bytes := [98]

end HpuCache.CommandTable
