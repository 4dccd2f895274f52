import RegisterAllocation.Graph.Build
import RegisterAllocation.Machine.State

/-!
Sample programs, each with arguments to run it on.
-/

namespace RegisterAllocation

/-- Builds a program and gives the arguments to run it on. -/
structure Sample where
  name : String
  build : Build (List Word)

namespace Sample

open Build

private def entry : BlockId := 0

private def int (b : BlockId) (c : Word) : Build ValueId := constant b .int64 c

private def store (b : BlockId) (base index value : ValueId) : Build Unit := do
  let _ ← append b .store .void [base, index, value]

private def branch (b : BlockId) (c : Condition) (lhs rhs : ValueId) : Build Unit := do
  let _ ← append b (.branch c) .void [lhs, rhs]

private def finish (b : BlockId) (v : ValueId) (args : List Word) : Build (List Word) := do
  let _ ← ret b v
  return args

private def callInt (b : BlockId) (callee : Nat) (args : List ValueId) : Build ValueId := do
  need (← call b callee .int64 args)

private def pairAt (b : BlockId) (base index : ValueId) : Build (ValueId × ValueId) := do
  let i ← append b .loadPair .int64 [base, index]
  let results := (← ask (·.instr i)).results
  return (← need results[0]?, ← need results[1]?)

def straightLine : Build (List Word) := do
  let p0 ← param .int64
  let p1 ← param .int64
  let seven ← int entry 7
  let a ← binary entry .add p0 p1
  let b ← binary entry .mul a p0
  let c ← binary entry .sub b p1
  let d ← binary entry .and c a
  let e ← binary entry .add d seven
  finish entry e [3, 5]

def select4 : Build (List Word) := do
  let a ← param .int64
  let b ← param .int64
  let one ← int entry 1
  let two ← int entry 2
  let x ← binary entry .add a one
  let y ← binary entry .add b two
  let s ← value entry (.select .lt) .int64 [a, b, x, y]
  finish entry s [4, 9]

/-- Fills memory with squares in a first loop, and sums them in a second. -/
def fillThenSum : Build (List Word) := do
  let fill ← addBlock
  let sum ← addBlock
  let exit ← addBlock
  addEdge entry fill
  addEdge fill fill
  addEdge fill sum
  addEdge sum sum
  addEdge sum exit
  let n ← param .int64
  let nought ← int entry 0
  let one ← int entry 1
  let i ← phi fill .int64 [nought]
  let sq ← binary fill .mul i i
  store fill nought i sq
  let i1 ← binary fill .add i one
  addPhiInput i i1
  branch fill .lt i1 n
  let k ← phi sum .int64 [nought]
  let acc ← phi sum .int64 [nought]
  let v ← binary sum .load nought k
  let acc1 ← binary sum .add acc v
  let k1 ← binary sum .add k one
  addPhiInput k k1
  addPhiInput acc acc1
  branch sum .lt k1 n
  finish exit acc1 [10]

def diamond : Build (List Word) := do
  let left ← addBlock
  let right ← addBlock
  let join ← addBlock
  addEdge entry left
  addEdge entry right
  addEdge left join
  addEdge right join
  let a ← param .int64
  let b ← param .int64
  branch entry .gt a b
  let d1 ← binary left .sub a b
  let d2 ← binary right .sub b a
  let m ← phi join .int64 [d1, d2]
  let s ← binary join .add m a
  finish join s [4, 11]

def criticalEdge : Build (List Word) := do
  let inner ← addBlock
  let join ← addBlock
  addEdge entry inner
  addEdge entry join
  addEdge inner join
  let a ← param .int64
  let b ← param .int64
  let c ← binary entry .add a b
  branch entry .lt a b
  let t ← binary inner .mul c a
  let p ← phi join .int64 [c, t]
  let r ← binary join .add p b
  finish join r [2, 3]

/-- Two phis that swap their values in every round. -/
def swapLoop : Build (List Word) := do
  let header ← addBlock
  let exit ← addBlock
  addEdge entry header
  addEdge header header
  addEdge header exit
  let a ← param .int64
  let b ← param .int64
  let n ← param .int64
  let nought ← int entry 0
  let one ← int entry 1
  let ten ← int entry 10
  let i ← phi header .int64 [nought]
  let x ← phi header .int64 [a]
  let y ← phi header .int64 [b]
  addPhiInput x y
  addPhiInput y x
  let i1 ← binary header .add i one
  addPhiInput i i1
  branch header .lt i1 n
  let t ← binary exit .mul x ten
  let r ← binary exit .add t y
  finish exit r [1, 2, 5]

/-- Values kept across calls, arguments on the stack and a zero used after a call. -/
def calls : Build (List Word) := do
  let a ← param .int64
  let b ← param .int64
  let nought ← int entry 0
  let five ← int entry 5
  let r1 ← callInt entry 1 [a, b]
  let r2 ← callInt entry 2 [r1, a, b, five, a, b, r1, a, b, nought]
  let s ← binary entry .add r2 a
  let t ← binary entry .add s b
  let u ← binary entry .add t nought
  store entry nought nought r1
  finish entry u [7, 9]

def stackParams : Build (List Word) := do
  let params ← (List.range 10).mapM fun _ => param .int64
  match params.reverse with
  | [] => throw .outOfRange
  | last :: rest =>
    let acc ← rest.foldlM (fun acc p => binary entry .sub p acc) last
    finish entry acc ((List.range 10).map fun k => Int64.ofNat ((k + 1) * (k + 1)))

def loadPair : Build (List Word) := do
  let a ← param .int64
  let b ← param .int64
  let base ← int entry 0
  let four ← int entry 4
  let five ← int entry 5
  store entry base four a
  store entry base five b
  let (x, y) ← pairAt entry base four
  let r ← binary entry .sub x y
  finish entry r [40, 2]

def pressure : Build (List Word) := do
  let a ← param .int64
  let b ← param .int64
  let vals ← (List.range 12).mapM fun k => do
    let c ← int entry (Int64.ofNat (k + 1))
    let m ← binary entry .mul a c
    binary entry .add m b
  match vals.reverse with
  | [] => throw .outOfRange
  | last :: rest =>
    let acc ← rest.foldlM (fun acc v => binary entry .sub v acc) last
    finish entry acc [3, 1]

def floats : Build (List Word) := do
  let x ← param .float64
  let y ← param .float64
  let slot ← param .int64
  let base ← int entry 0
  let c ← binary entry .mul x y
  let d ← binary entry .add c x
  let r ← need (← call entry 7 .float64 [d, y])
  store entry base slot r
  let e ← binary entry .sub d y
  let f ← binary entry .mul e c
  let m ← value entry (.select .lt) .float64 [e, f, e, f]
  finish entry m [.ofFloat 1.5, .ofFloat 2.25, 3]

def nestedLoops : Build (List Word) := do
  let outer ← addBlock
  let inner ← addBlock
  let latch ← addBlock
  let exit ← addBlock
  addEdge entry outer
  addEdge outer inner
  addEdge inner inner
  addEdge inner latch
  addEdge latch outer
  addEdge latch exit
  let n ← param .int64
  let nought ← int entry 0
  let one ← int entry 1
  let i ← phi outer .int64 [nought]
  let s ← phi outer .int64 [nought]
  let j ← phi inner .int64 [nought]
  let t ← phi inner .int64 [s]
  let p ← binary inner .mul i j
  let t1 ← binary inner .add t p
  let j1 ← binary inner .add j one
  addPhiInput j j1
  addPhiInput t t1
  branch inner .lt j1 n
  let s2 ← binary latch .add t1 i
  let i1 ← binary latch .add i one
  addPhiInput i i1
  addPhiInput s s2
  branch latch .lt i1 n
  finish exit s2 [6]

/-- A call in a loop, with a parameter needed in all rounds. -/
def callLoop : Build (List Word) := do
  let header ← addBlock
  let exit ← addBlock
  addEdge entry header
  addEdge header header
  addEdge header exit
  let a ← param .int64
  let nought ← int entry 0
  let one ← int entry 1
  let four ← int entry 4
  let mask ← int entry 1023
  let i ← phi header .int64 [nought]
  let acc ← phi header .int64 [a]
  let r ← callInt header 9 [acc, i]
  let m ← binary header .and r mask
  let acc1 ← binary header .add m a
  let i1 ← binary header .add i one
  addPhiInput i i1
  addPhiInput acc acc1
  branch header .lt i1 four
  let r ← binary exit .add acc1 a
  finish exit r [17]

def sort : Build (List Word) := do
  let fill ← addBlock
  let outer ← addBlock
  let inner ← addBlock
  let check ← addBlock
  let shift ← addBlock
  let place ← addBlock
  let exit ← addBlock
  addEdge entry fill
  addEdge fill fill
  addEdge fill outer
  addEdge outer inner
  addEdge inner place
  addEdge inner check
  addEdge check shift
  addEdge check place
  addEdge shift inner
  addEdge place outer
  addEdge place exit
  let n ← param .int64
  let nought ← int entry 0
  let one ← int entry 1
  let factor ← int entry 37
  let offset ← int entry 11
  let mask ← int entry 63
  let thousand ← int entry 1000
  let fi ← phi fill .int64 [nought]
  let t0 ← binary fill .mul fi factor
  let t1 ← binary fill .add t0 offset
  let t2 ← binary fill .and t1 mask
  store fill nought fi t2
  let fi1 ← binary fill .add fi one
  addPhiInput fi fi1
  branch fill .lt fi1 n
  let i ← phi outer .int64 [one]
  let key ← binary outer .load nought i
  let j0 ← binary outer .sub i one
  let j ← phi inner .int64 [j0]
  branch inner .lt j nought
  let mj ← binary check .load nought j
  branch check .gt mj key
  let jp1 ← binary shift .add j one
  store shift nought jp1 mj
  let j1 ← binary shift .sub j one
  addPhiInput j j1
  let slot ← binary place .add j one
  store place nought slot key
  let i1 ← binary place .add i one
  addPhiInput i i1
  branch place .lt i1 n
  let last ← binary exit .sub n one
  let hi ← binary exit .load nought last
  let lo ← binary exit .load nought nought
  let scaled ← binary exit .mul hi thousand
  let r ← binary exit .add scaled lo
  finish exit r [20]

/-- Sums words that a loop writes, going down from the top of memory. -/
def highMemory : Build (List Word) := do
  let header ← addBlock
  let exit ← addBlock
  addEdge entry header
  addEdge header header
  addEdge header exit
  let seed ← param .int64
  let top ← int entry (Int64.ofNat memorySize - 2)
  let base ← int entry 0
  let one ← int entry 1
  let stop ← int entry (Int64.ofNat memorySize - 12)
  let addr ← phi header .int64 [top]
  let acc ← phi header .int64 [seed]
  store header base addr acc
  let (lo, hi) ← pairAt header base addr
  let sum ← binary header .add lo hi
  let acc1 ← binary header .add sum one
  let addr1 ← binary header .sub addr one
  addPhiInput addr addr1
  addPhiInput acc acc1
  branch header .gt addr1 stop
  finish exit acc1 [5]

def all : List Sample := [
  ⟨"straight_line", straightLine⟩,
  ⟨"select4", select4⟩,
  ⟨"fill_then_sum", fillThenSum⟩,
  ⟨"diamond", diamond⟩,
  ⟨"critical_edge", criticalEdge⟩,
  ⟨"swap_loop", swapLoop⟩,
  ⟨"calls", calls⟩,
  ⟨"stack_params", stackParams⟩,
  ⟨"load_pair", loadPair⟩,
  ⟨"pressure", pressure⟩,
  ⟨"fp", floats⟩,
  ⟨"nested_loops", nestedLoops⟩,
  ⟨"call_loop", callLoop⟩,
  ⟨"sort", sort⟩,
  ⟨"high_memory", highMemory⟩]

def names : List String := all.map Sample.name

def sortedNames : List String := names.mergeSort fun a b => !(b < a)

def find? (name : String) : Option Sample := all.find? (·.name == name)

def program (s : Sample) (arch : Arch) : Except Fault (List Word × Graph) :=
  s.build.run (.new s.name arch)

end Sample

end RegisterAllocation
