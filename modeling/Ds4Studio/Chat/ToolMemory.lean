import Ds4Studio.Lib.Bytes
import Ds4Studio.Lib.Linked

/-!
The tool memory of the server: which markup the model sampled under which call
id. Ids that came from one message share a block, and the entry used longest ago
is the first to go when the memory is over a limit.
-/

namespace Ds4Studio.Chat.ToolMemory

open Bytes Function Linked List

/-- An address. `xmalloc` hands out the next one; a later reuse would be of an
address that nothing keeps any more. -/
abbrev Ptr := ℕ

inductive Source where
  | ram
  | disk
  deriving DecidableEq

/-- `tool_memory_entry`; the links of the list stand beside it, in `Memory`. -/
structure Entry where
  id : Bytes
  block : Ptr
  bytes : ℕ
  stamp : ℕ
  source : Source

/-- `tool_memory_block` -/
structure Block where
  dsml : Bytes
  len : ℕ
  bytes : ℕ
  refs : ℕ
  entries : List Ptr

/-- `sizeof(tool_memory_entry)` -/
def sizeofEntry : ℕ := 64

/-- `sizeof(tool_memory_block)` -/
def sizeofBlock : ℕ := 48

/-- The fields of `tool_memory` that are set once, when the server starts. -/
structure Limits where
  maxEntries : ℤ
  maxBytes : ℕ

/-- `tool_memory_max_entries` -/
def Limits.entries (l : Limits) : ℤ := if 0 < l.maxEntries then l.maxEntries else 100000

/-- `tool_memory_max_bytes` -/
def Limits.bytes (l : Limits) : ℕ := if 0 < l.maxBytes then l.maxBytes else 512 * 1024 * 1024

/-- `tool_memory`, with what lies at each address. The two indexes are maps. -/
structure Memory where
  byId : Bytes → Option Ptr
  byBlock : Bytes → Option Ptr
  entryAt : Ptr → Entry
  blockAt : Ptr → Block
  links : Links Ptr
  entries : ℕ
  bytes : ℕ
  clock : ℕ
  brk : Ptr

def empty : Memory where
  byId := fun _ => none
  byBlock := fun _ => none
  entryAt := fun _ => ⟨[], 0, 0, 0, .ram⟩
  blockAt := fun _ => ⟨[], 0, 0, 0, []⟩
  links := ⟨fun _ => none, fun _ => none, none, none⟩
  entries := 0
  bytes := 0
  clock := 0
  brk := 0

namespace Memory

/-- `tool_memory_touch` -/
def touch (m : Memory) (e : Ptr) : Memory :=
  let stamped := { m.entryAt e with stamp := m.clock + 1 }
  { m with
    clock := m.clock + 1
    entryAt := update m.entryAt e stamped
    links := if m.links.head = some e then m.links else (m.links.unlink e).linkHead e }

/-- `tool_memory_find_block_locked` -/
def findBlock (m : Memory) (dsml : Bytes) : Option Ptr :=
  if dsml.length = 0 then none else m.byBlock dsml

/-- `tool_memory_get_block_locked` -/
def getBlock (m : Memory) (dsml : Bytes) : Memory × Ptr :=
  match m.findBlock dsml with
  | some b => (m, b)
  | none =>
      let block : Block := ⟨dsml, dsml.length, dsml.length + 1 + sizeofBlock, 0, []⟩
      ({ m with
          blockAt := update m.blockAt m.brk block
          byBlock := update m.byBlock dsml (some m.brk)
          bytes := m.bytes + block.bytes
          brk := m.brk + 1 }, m.brk)

/-- `tool_memory_release_block_locked`, from the test of the count on -/
def freeUnused (m : Memory) (b : Ptr) : Memory :=
  if 0 < (m.blockAt b).refs then m
  else
    { m with
      byBlock := update m.byBlock (m.blockAt b).dsml none
      bytes := m.bytes - (m.blockAt b).bytes }

/-- `tool_memory_release_block_locked` -/
def releaseBlock (m : Memory) (b : Ptr) : Memory :=
  let released := { m.blockAt b with refs := (m.blockAt b).refs - 1 }
  freeUnused { m with blockAt := update m.blockAt b released } b

/-- `tool_memory_remove_entry_locked` -/
def removeEntry (m : Memory) (e : Ptr) : Memory :=
  let entry := m.entryAt e
  let block := { m.blockAt entry.block with entries := (m.blockAt entry.block).entries.erase e }
  releaseBlock
    { m with
      byId := update m.byId entry.id none
      links := m.links.unlink e
      blockAt := update m.blockAt entry.block block
      bytes := m.bytes - entry.bytes
      entries := m.entries - 1 } entry.block

/-- The loop of `tool_memory_prune_locked`; an entry is gone each time. -/
def pruneLoop (l : Limits) : ℕ → Memory → Memory
  | 0, m => m
  | fuel + 1, m =>
      if l.entries < m.entries ∨ l.bytes < m.bytes then
        match m.links.tail with
        | some e => pruneLoop l fuel (m.removeEntry e)
        | none => m
      else m

/-- `tool_memory_prune_locked` -/
def prune (l : Limits) (m : Memory) : Memory := pruneLoop l m.entries m

/-- `tool_memory_find_entry_locked` -/
def findEntry (m : Memory) (id : Bytes) : Option Ptr := if id.length = 0 then none else m.byId id

/-- The entry `tool_memory_put_locked` makes, on a block it has. -/
def link (m : Memory) (id : Bytes) (b : Ptr) (source : Source) : Memory :=
  let e := m.brk
  let entry : Entry := ⟨id, b, id.length + 1 + sizeofEntry, m.clock + 1, source⟩
  let block := { m.blockAt b with
    entries := e :: (m.blockAt b).entries, refs := (m.blockAt b).refs + 1 }
  { byId := update m.byId id (some e)
    byBlock := m.byBlock
    entryAt := update m.entryAt e entry
    blockAt := update m.blockAt b block
    links := m.links.linkHead e
    entries := m.entries + 1
    bytes := m.bytes + entry.bytes
    clock := m.clock + 1
    brk := m.brk + 1 }

/-- `tool_memory_put_locked`, once no entry has the id -/
def putNew (l : Limits) (m : Memory) (id dsml : Bytes) (source : Source) : Memory :=
  prune l ((m.getBlock dsml).1.link id (m.getBlock dsml).2 source)

/-- `tool_memory_put_locked` -/
def put (l : Limits) (m : Memory) (id dsml : Bytes) (source : Source) : Memory :=
  if id = [] ∨ dsml = [] then m
  else
    match m.findEntry id with
    | none => m.putNew l id dsml source
    | some old =>
        let block := m.blockAt (m.entryAt old).block
        if block.len = dsml.length ∧ block.dsml = dsml then
          let entry := { m.entryAt old with
            source := if source = .ram then .ram else (m.entryAt old).source }
          prune l (touch { m with entryAt := update m.entryAt old entry } old)
        else (m.removeEntry old).putNew l id dsml source

/-- `tool_memory_lookup_locked` -/
def lookup (m : Memory) (id : Bytes) : Memory × Option Bytes :=
  match m.findEntry id with
  | none => (m, none)
  | some e => (m.touch e, some (m.blockAt (m.entryAt e).block).dsml)

/-- `tool_memory_remember` -/
def remember (l : Limits) (disabled : Bool) (calls : List Bytes) (rawDsml : Bytes) (m : Memory) :
    Memory :=
  if disabled || rawDsml.isEmpty then m
  else calls.foldl (fun m id => m.put l id rawDsml .ram) m

end Memory

/-- What the server does with its memory, one lock after another. -/
inductive Op where
  | put (id dsml : Bytes) (source : Source)
  | remember (disabled : Bool) (calls : List Bytes) (rawDsml : Bytes)
  | lookup (id : Bytes)
  | touch (id : Bytes)
  | prune
  | remove (id : Bytes)

def step (l : Limits) (m : Memory) : Op → Memory
  | .put id dsml source => m.put l id dsml source
  | .remember disabled calls rawDsml => m.remember l disabled calls rawDsml
  | .lookup id => (m.lookup id).1
  | .touch id => (m.findEntry id).elim m m.touch
  | .prune => m.prune l
  | .remove id => (m.findEntry id).elim m m.removeEntry

def run (l : Limits) (ops : List Op) : Memory := ops.foldl (step l) empty

/-- The puts an operation asks for. -/
def Op.puts : Op → List (Bytes × Bytes)
  | .put id dsml _ => [(id, dsml)]
  | .remember disabled calls rawDsml =>
      if disabled || rawDsml.isEmpty then [] else calls.map (·, rawDsml)
  | _ => []

/-- The last put of each id; an empty id or markup is none. -/
def lastPut (puts : List (Bytes × Bytes)) (kept : Bytes → Option Bytes) : Bytes → Option Bytes :=
  puts.foldl (fun kept p =>
    if p.1 = [] ∨ p.2 = [] then kept else update kept p.1 (some p.2)) kept

/-- The entries that point at a block. -/
def users (m : Memory) (lru : List Ptr) (b : Ptr) : List Ptr :=
  lru.filter fun e => (m.entryAt e).block = b

/-- A block counts and lists the entries that point at it. -/
structure BlockOk (users : List Ptr) (block : Block) : Prop where
  refs : block.refs = users.length
  chain : block.entries.Perm users
  bytes : block.bytes = block.dsml.length + 1 + sizeofBlock

/-- An entry points at a block with the markup of its id. -/
structure EntryOk (kept : Bytes → Option Bytes) (m : Memory) (blocks : List Ptr) (entry : Entry) :
    Prop where
  block : entry.block ∈ blocks
  bytes : entry.bytes = entry.id.length + 1 + sizeofEntry
  clock : entry.stamp ≤ m.clock
  kept : kept entry.id = some (m.blockAt entry.block).dsml

/-- The two indexes, the list, the counts and the sizes agree. -/
structure Tallied (kept : Bytes → Option Bytes) (m : Memory) (lru blocks : List Ptr) : Prop where
  links : m.links.Holds lru
  byId : Indexes m.byId lru fun e => (m.entryAt e).id
  entry : ∀ e ∈ lru, EntryOk kept m blocks (m.entryAt e)
  nodup : blocks.Nodup
  byBlock : Indexes m.byBlock blocks fun b => (m.blockAt b).dsml
  block : ∀ b ∈ blocks, BlockOk (users m lru b) (m.blockAt b)
  entries : m.entries = lru.length
  bytes : m.bytes = (lru.map fun e => (m.entryAt e).bytes).sum +
    (blocks.map fun b => (m.blockAt b).bytes).sum
  stamps : lru.Pairwise fun e f => (m.entryAt f).stamp < (m.entryAt e).stamp
  brk : ∀ p, p ∈ lru ∨ p ∈ blocks → p < m.brk

/-- And no block is left that nothing points at. -/
structure Books (kept : Bytes → Option Bytes) (m : Memory) (lru blocks : List Ptr) : Prop
    extends Tallied kept m lru blocks where
  used : ∀ b ∈ blocks, 0 < (m.blockAt b).refs

def Within (l : Limits) (m : Memory) : Prop := m.entries ≤ l.entries ∧ m.bytes ≤ l.bytes

variable {l : Limits} {kept : Bytes → Option Bytes} {m : Memory} {lru lru' blocks a c : List Ptr}
  {b e : Ptr}

theorem get_update {α β : Type} {f : Ptr → β} {p : Ptr} {y : β} (get : β → α)
    (h : get y = get (f p)) (x : Ptr) : get (update f p y x) = get (f x) := by
  by_cases hx : x = p
  · rw [hx, update_self, h]
  · rw [update_of_ne hx]

theorem forall_update {α : Type} {f : Ptr → α} {p : Ptr} {y : α} {s : List Ptr}
    {P : Ptr → α → Prop} (hy : P p y) (h : ∀ x ∈ s, x ≠ p → P x (f x)) :
    ∀ x ∈ s, P x (update f p y x) := by
  intro x hx
  by_cases hxp : x = p
  · subst hxp
    rwa [update_self]
  · rw [update_of_ne hxp]
    exact h x hx hxp

theorem BlockOk.of_perm {us vs : List Ptr} {block : Block} (h : BlockOk us block)
    (hperm : us.Perm vs) : BlockOk vs block :=
  ⟨h.refs.trans hperm.length_eq, h.chain.trans hperm, h.bytes⟩

/-- A step that moves entries about and changes no more than stamp and source. -/
theorem Tallied.reorder (h : Tallied kept m lru blocks) (hperm : lru'.Perm lru)
    (entryAt : Ptr → Entry) (links : Links Ptr) (clock : ℕ)
    (hid : ∀ e, (entryAt e).id = (m.entryAt e).id)
    (hblock : ∀ e, (entryAt e).block = (m.entryAt e).block)
    (hbytes : ∀ e, (entryAt e).bytes = (m.entryAt e).bytes) (hlinks : links.Holds lru')
    (hstamps : lru'.Pairwise fun e f => (entryAt f).stamp < (entryAt e).stamp)
    (hclock : ∀ e ∈ lru', (entryAt e).stamp ≤ clock) :
    Tallied kept { m with entryAt := entryAt, links := links, clock := clock } lru' blocks := by
  refine ⟨hlinks, ?_, ?_, h.nodup, h.byBlock, ?_, h.entries.trans hperm.length_eq.symm, ?_, hstamps,
    fun p hp => h.brk p (hp.imp_left hperm.mem_iff.mp)⟩
  · intro id e
    simp only [hid, hperm.mem_iff]
    exact h.byId id e
  · intro e he
    obtain ⟨hmem, hsize, -, hkept⟩ := h.entry e (hperm.mem_iff.mp he)
    rw [← hblock e] at hmem hkept
    rw [← hid e] at hsize hkept
    exact ⟨hmem, (hbytes e).trans hsize, hclock e he, hkept⟩
  · intro b hb
    refine (h.block b hb).of_perm ?_
    simp only [users, hblock]
    exact hperm.symm.filter _
  · simp only [hbytes]
    rw [h.bytes, (hperm.map _).sum_nat]

theorem Books.source (h : Books kept m lru blocks) (source : Source) :
    Books kept
      { m with entryAt := update m.entryAt e { m.entryAt e with source := source } }
      lru blocks := by
  have hstamp := get_update (f := m.entryAt) (y := { m.entryAt e with source := source })
    Entry.stamp rfl
  refine ⟨h.reorder (List.Perm.refl lru) _ m.links m.clock (get_update Entry.id rfl)
    (get_update Entry.block rfl) (get_update Entry.bytes rfl) h.links ?_ ?_, h.used⟩
  · exact h.stamps.imp fun hlt => by rwa [hstamp, hstamp]
  · exact fun f hf => by rw [hstamp]; exact (h.entry f hf).clock

theorem Tallied.touch (h : Tallied kept m lru blocks) (he : e ∈ lru) :
    ∃ lru', Tallied kept (m.touch e) lru' blocks := by
  obtain ⟨a, c, rfl⟩ := append_of_mem he
  have hperm : (e :: (a ++ c)).Perm (a ++ e :: c) := perm_middle.symm
  have hea : e ∉ a ++ c := (nodup_cons.mp (hperm.nodup_iff.mpr h.links.nodup)).1
  have hother : ∀ f ∈ a ++ c, f ≠ e := fun f hf heq => hea (heq ▸ hf)
  have hclock : ∀ f ∈ e :: (a ++ c), (m.entryAt f).stamp ≤ m.clock := fun f hf =>
    (h.entry f (hperm.mem_iff.mp hf)).clock
  refine ⟨e :: (a ++ c), h.reorder hperm _ _ (m.clock + 1) (get_update Entry.id rfl)
    (get_update Entry.block rfl) (get_update Entry.bytes rfl) ?_ ?_ ?_⟩
  · split
    · rename_i hhead
      have ha : a = [] := by
        cases a with
        | nil => rfl
        | cons first a =>
          rw [h.links.head] at hhead
          exact absurd (Option.some.inj hhead) (hother first (by simp))
      subst ha
      exact h.links
    · exact h.links.unlink.linkHead hea
  · rw [pairwise_cons]
    constructor
    · intro f hf
      rw [update_self, update_of_ne (hother f hf)]
      exact Nat.lt_succ_of_le (hclock f (mem_cons_of_mem e hf))
    · refine List.Pairwise.imp_of_mem ?_
        (h.stamps.sublist (List.Sublist.append_left (sublist_cons_self e c) a))
      intro f g hf hg hlt
      rwa [update_of_ne (hother f hf), update_of_ne (hother g hg)]
  · exact forall_update (P := fun _ (x : Entry) => x.stamp ≤ m.clock + 1) (Nat.le_refl _)
      fun f hf _ => Nat.le_succ_of_le (hclock f hf)

theorem Books.touch (h : Books kept m lru blocks) (he : e ∈ lru) :
    ∃ lru', Books kept (m.touch e) lru' blocks := by
  obtain ⟨lru', htally⟩ := h.toTallied.touch he
  exact ⟨lru', htally, h.used⟩

theorem Tallied.freeUnused (h : Tallied kept m lru blocks) (hb : b ∈ blocks)
    (hused : ∀ x ∈ blocks, x ≠ b → 0 < (m.blockAt x).refs) :
    ∃ blocks', Books kept (m.freeUnused b) lru blocks' := by
  unfold Memory.freeUnused
  split
  · rename_i hpos
    refine ⟨blocks, h, fun x hx => ?_⟩
    by_cases hxb : x = b
    · exact hxb ▸ hpos
    · exact hused x hx hxb
  · rename_i hzero
    have hother : ∀ x, x ∈ blocks.erase b ↔ x ∈ blocks ∧ x ≠ b := fun x => by
      rw [h.nodup.mem_erase_iff, and_comm]
    have hnone : users m lru b = [] := by
      have := (h.block b hb).refs
      exact eq_nil_of_length_eq_zero (by omega)
    refine ⟨blocks.erase b, ⟨h.links, h.byId, ?_, h.nodup.erase b, ?_, ?_, h.entries, ?_,
      h.stamps, ?_⟩, fun x hx => hused x ((hother x).mp hx).1 ((hother x).mp hx).2⟩
    · intro f hf
      obtain ⟨hmem, hsize, hclock, hkept⟩ := h.entry f hf
      refine ⟨(hother _).mpr ⟨hmem, fun heq => ?_⟩, hsize, hclock, hkept⟩
      exact ne_nil_of_mem (mem_filter.mpr ⟨hf, decide_eq_true heq⟩) hnone
    · exact h.byBlock.remove (perm_cons_erase hb) h.nodup.not_mem_erase
    · exact fun x hx => h.block x ((hother x).mp hx).1
    · have hsum := ((perm_cons_erase hb).map fun x => (m.blockAt x).bytes).sum_nat
      have := h.bytes
      simp only [map_cons, sum_cons] at hsum ⊢
      omega
    · exact fun p hp => h.brk p (hp.imp_right fun hx => ((hother p).mp hx).1)

theorem removeEntry_byId (m : Memory) (e : Ptr) :
    (m.removeEntry e).byId = update m.byId (m.entryAt e).id none := by
  simp only [Memory.removeEntry, Memory.releaseBlock, Memory.freeUnused]
  split <;> rfl

theorem Books.removeEntry (h : Books kept m (a ++ e :: c) blocks) :
    ∃ blocks', Books kept (m.removeEntry e) (a ++ c) blocks' := by
  have hperm : (e :: (a ++ c)).Perm (a ++ e :: c) := perm_middle.symm
  have hnew : e ∉ a ++ c := (nodup_cons.mp (hperm.nodup_iff.mpr h.links.nodup)).1
  have hmem : ∀ f, f ∈ a ++ e :: c ↔ f = e ∨ f ∈ a ++ c := fun f => by
    rw [← hperm.mem_iff, mem_cons]
  have he := (hmem e).mpr (.inl rfl)
  have hb := (h.entry e he).block
  have husers : ∀ x, (users m (a ++ e :: c) x).Perm
      ((if (m.entryAt e).block = x then [e] else []) ++ users m (a ++ c) x) := fun x => by
    split <;> simp_all [users]
  unfold Memory.removeEntry Memory.releaseBlock
  simp only [update_self, update_idem]
  generalize hy : ({ m.blockAt (m.entryAt e).block with
    entries := (m.blockAt (m.entryAt e).block).entries.erase e
    refs := (m.blockAt (m.entryAt e).block).refs - 1 } : Block) = y
  have hdsml := get_update (f := m.blockAt) (p := (m.entryAt e).block) Block.dsml
    (by rw [← hy] : y.dsml = _)
  have hbytes := get_update (f := m.blockAt) (p := (m.entryAt e).block) Block.bytes
    (by rw [← hy] : y.bytes = _)
  refine Tallied.freeUnused (b := (m.entryAt e).block) ⟨h.links.unlink,
    h.byId.remove hperm.symm hnew, ?_, h.nodup, ?_, ?_, ?_, ?_, ?_, ?_⟩ hb ?_
  · intro f hf
    obtain ⟨hmem', hsize, hclock, hkept⟩ := h.entry f ((hmem f).mpr (.inr hf))
    exact ⟨hmem', hsize, hclock, hkept.trans (congrArg some (hdsml _).symm)⟩
  · simp only [hdsml]
    exact h.byBlock
  · refine forall_update (P := fun x block => BlockOk (users m (a ++ c) x) block) ?_
      fun x hx hne => (h.block x hx).of_perm ?_
    · obtain ⟨hrefs, hchain, hsize⟩ := (h.block _ hb).of_perm (husers _)
      rw [if_pos rfl] at hrefs hchain
      subst hy
      exact ⟨Nat.sub_eq_of_eq_add hrefs,
        (hchain.erase e).trans (List.Perm.of_eq (erase_cons_head ..)), hsize⟩
    · have hperm' := husers x
      rwa [if_neg (Ne.symm hne)] at hperm'
  · have := h.entries
    rw [← hperm.length_eq, length_cons] at this
    simp only
    omega
  · have hsum := (hperm.map fun f => (m.entryAt f).bytes).sum_nat
    have := h.bytes
    simp only [map_cons, sum_cons, hbytes] at hsum ⊢
    omega
  · exact h.stamps.sublist (List.Sublist.append_left (sublist_cons_self e c) a)
  · exact fun p hp => h.brk p (hp.imp_left fun hf => (hmem p).mpr (.inr hf))
  · intro x hx hne
    simp only [update_of_ne hne]
    exact h.used x hx

theorem within_of_nil (h : Books kept m [] blocks) : Within l m := by
  have hblocks : blocks = [] := eq_nil_iff_forall_not_mem.mpr fun b hb => by
    have hrefs := (h.block b hb).refs
    exact absurd (h.used b hb) (by rw [hrefs]; simp [users])
  have hentries := h.entries
  have hbytes := h.bytes
  subst hblocks
  refine ⟨?_, by simp [hbytes]⟩
  simp only [hentries, Limits.entries, length_nil]
  split <;> omega

section

variable (h : Books kept m lru blocks)

include h

theorem pruneLoop_books {fuel : ℕ} (hfuel : lru.length ≤ fuel) :
    ∃ lru' blocks', Books kept (m.pruneLoop l fuel) lru' blocks' ∧
      Within l (m.pruneLoop l fuel) := by
  induction fuel generalizing m lru blocks with
  | zero =>
    obtain rfl := eq_nil_of_length_eq_zero (Nat.le_zero.mp hfuel)
    exact ⟨[], blocks, h, within_of_nil h⟩
  | succ fuel ih =>
    unfold Memory.pruneLoop
    split
    · split
      · rename_i e htail
        rw [h.links.tail] at htail
        obtain ⟨a, rfl⟩ := getLast?_eq_some_iff.mp htail
        obtain ⟨blocks', hbooks⟩ := h.removeEntry
        refine ih hbooks ?_
        simpa using hfuel
      · rename_i htail
        rw [h.links.tail, getLast?_eq_none_iff] at htail
        subst htail
        exact ⟨[], blocks, h, within_of_nil h⟩
    · rename_i hunder
      rw [not_or, not_lt, not_lt] at hunder
      exact ⟨lru, blocks, h, hunder⟩

theorem prune_books : ∃ lru' blocks', Books kept (m.prune l) lru' blocks' ∧ Within l (m.prune l) :=
  pruneLoop_books h h.entries.ge

theorem Tallied.getBlock {dsml : Bytes} (hdsml : dsml ≠ []) :
    ∃ blocks', Tallied kept (m.getBlock dsml).1 lru blocks' ∧
      (m.getBlock dsml).2 ∈ blocks' ∧
      ((m.getBlock dsml).1.blockAt (m.getBlock dsml).2).dsml = dsml ∧
      ∀ x ∈ blocks', x ≠ (m.getBlock dsml).2 → 0 < ((m.getBlock dsml).1.blockAt x).refs := by
  unfold Memory.getBlock Memory.findBlock
  rw [if_neg (mt eq_nil_of_length_eq_zero hdsml)]
  split
  · rename_i b hfind
    obtain ⟨hb, hsame⟩ := (h.byBlock dsml b).mp hfind
    exact ⟨blocks, h.toTallied, hb, hsame, fun x hx _ => h.used x hx⟩
  · rename_i hfind
    have hnew : m.brk ∉ blocks := fun hmem => (h.brk m.brk (.inr hmem)).false
    have hother : ∀ x ∈ blocks, x ≠ m.brk := fun x hx heq => hnew (heq ▸ hx)
    have hnone : users m lru m.brk = [] := filter_eq_nil_iff.mpr fun e he heq =>
      hother _ (h.entry e he).block (of_decide_eq_true heq)
    have hold : ∀ x ∈ m.brk :: blocks, x ≠ m.brk → x ∈ blocks := fun x hx hne =>
      (mem_cons.mp hx).resolve_left hne
    refine ⟨m.brk :: blocks, ⟨h.links, h.byId, ?_, nodup_cons.mpr ⟨hnew, h.nodup⟩, ?_, ?_,
      h.entries, ?_, h.stamps, ?_⟩, mem_cons_self, by simp, ?_⟩
    · intro e he
      obtain ⟨hmem, hsize, hclock, hkept⟩ := h.entry e he
      refine ⟨mem_cons_of_mem _ hmem, hsize, hclock, ?_⟩
      simpa only [update_of_ne (hother _ hmem)] using hkept
    · refine h.byBlock.insert hfind hnew (by simp) fun x hx => ?_
      simp only [update_of_ne (hother x hx)]
    · refine forall_update (P := fun x block => BlockOk (users m lru x) block) ?_
        fun x hx hne => h.block x (hold x hx hne)
      rw [hnone]
      exact ⟨rfl, List.Perm.refl _, rfl⟩
    · have hsum : blocks.map (fun x => (update m.blockAt m.brk
          ⟨dsml, dsml.length, dsml.length + 1 + sizeofBlock, 0, []⟩ x).bytes) =
          blocks.map fun x => (m.blockAt x).bytes :=
        map_congr_left fun x hx => by rw [update_of_ne (hother x hx)]
      simp only [map_cons, sum_cons, update_self, hsum, h.bytes]
      omega
    · rintro p (hp | hp)
      · exact Nat.lt_succ_of_lt (h.brk p (.inl hp))
      · rcases mem_cons.mp hp with rfl | hp
        · exact Nat.lt_succ_self _
        · exact Nat.lt_succ_of_lt (h.brk p (.inr hp))
    · intro x hx hne
      simp only [update_of_ne hne]
      exact h.used x (hold x hx hne)

end

theorem Tallied.link (h : Tallied kept m lru blocks) (hb : b ∈ blocks) {id : Bytes}
    (hid : m.byId id = none) (source : Source)
    (hused : ∀ x ∈ blocks, x ≠ b → 0 < (m.blockAt x).refs) :
    Books (update kept id (some (m.blockAt b).dsml)) (m.link id b source)
      (m.brk :: lru) blocks := by
  have hnew : m.brk ∉ lru := fun hmem => (h.brk m.brk (.inl hmem)).false
  have hother : ∀ e ∈ lru, e ≠ m.brk := fun e he heq => hnew (heq ▸ he)
  have hid' : ∀ e ∈ lru, (m.entryAt e).id ≠ id := fun e he heq => by
    have := (h.byId id e).mpr ⟨he, heq⟩
    rw [hid] at this
    contradiction
  have hentry : ∀ e ∈ lru, (m.link id b source).entryAt e = m.entryAt e := fun e he =>
    update_of_ne (hother e he) _ _
  have hself : (m.link id b source).entryAt m.brk =
      ⟨id, b, id.length + 1 + sizeofEntry, m.clock + 1, source⟩ := update_self ..
  have hdsml : ∀ x, ((m.link id b source).blockAt x).dsml = (m.blockAt x).dsml :=
    get_update Block.dsml rfl
  have hbytes : ∀ x, ((m.link id b source).blockAt x).bytes = (m.blockAt x).bytes :=
    get_update Block.bytes rfl
  have husers : ∀ x, users (m.link id b source) (m.brk :: lru) x =
      if b = x then m.brk :: users m lru x else users m lru x := fun x => by
    have hrest : users (m.link id b source) lru x = users m lru x :=
      filter_congr fun e he => by rw [hentry e he]
    unfold users at hrest ⊢
    rw [filter_cons, hself, hrest]
    simp only [decide_eq_true_eq]
  have hold : ∀ e ∈ m.brk :: lru, e ≠ m.brk → e ∈ lru := fun e he hne =>
    (mem_cons.mp he).resolve_left hne
  refine ⟨⟨h.links.linkHead hnew, h.byId.insert hid hnew (by rw [hself]) fun e he => by
    rw [hentry e he], ?_, h.nodup, ?_, ?_, congrArg (· + 1) h.entries, ?_, ?_, ?_⟩, ?_⟩
  · refine forall_update (P := fun _ x => EntryOk _ (m.link id b source) blocks x)
      ⟨hb, rfl, Nat.le_refl _, ?_⟩ fun e he hne => ?_
    · rw [hdsml, update_self]
    · obtain ⟨hmem, hsize, hclock, hkept⟩ := h.entry e (hold e he hne)
      refine ⟨hmem, hsize, Nat.le_succ_of_le hclock, ?_⟩
      rw [hdsml, update_of_ne (hid' e (hold e he hne)), hkept]
  · simp only [hdsml]
    exact h.byBlock
  · simp only [husers]
    refine forall_update (P := fun x block => BlockOk
      (if b = x then m.brk :: users m lru x else users m lru x) block) ?_ fun x hx hne => ?_
    · obtain ⟨hrefs, hchain, hsize⟩ := h.block b hb
      rw [if_pos rfl]
      exact ⟨congrArg (· + 1) hrefs, hchain.cons _, hsize⟩
    · rw [if_neg (Ne.symm hne)]
      exact h.block x hx
  · have hsum : lru.map (fun e => ((m.link id b source).entryAt e).bytes) =
        lru.map fun e => (m.entryAt e).bytes :=
      map_congr_left fun e he => by rw [hentry e he]
    simp only [map_cons, sum_cons, hself, hsum, hbytes]
    simp only [Memory.link, h.bytes]
    omega
  · refine pairwise_cons.mpr ⟨fun e he => ?_, h.stamps.imp_of_mem fun he hf hlt => ?_⟩
    · rw [hself, hentry e he]
      exact Nat.lt_succ_of_le (h.entry e he).clock
    · rwa [hentry _ he, hentry _ hf]
  · rintro p (hp | hp)
    · rcases mem_cons.mp hp with rfl | hp
      · exact Nat.lt_succ_self _
      · exact Nat.lt_succ_of_lt (h.brk p (.inl hp))
    · exact Nat.lt_succ_of_lt (h.brk p (.inr hp))
  · exact forall_update (P := fun _ (x : Block) => 0 < x.refs) (Nat.succ_pos _) hused

theorem putNew_books (h : Books kept m lru blocks) {id dsml : Bytes} (hdsml : dsml ≠ [])
    (hid : m.byId id = none) (source : Source) :
    ∃ lru' blocks', Books (update kept id (some dsml)) (m.putNew l id dsml source)
      lru' blocks' ∧ Within l (m.putNew l id dsml source) := by
  obtain ⟨blocks', htally, hb, hsame, hused⟩ := Tallied.getBlock h hdsml
  have hbyId : (m.getBlock dsml).1.byId id = none := by
    unfold Memory.getBlock
    split <;> exact hid
  have hlink := htally.link hb hbyId source hused
  rw [hsame] at hlink
  exact prune_books hlink

theorem findEntry_mem (h : Tallied kept m lru blocks) {id : Bytes}
    (hfind : m.findEntry id = some e) : e ∈ lru ∧ (m.entryAt e).id = id := by
  unfold Memory.findEntry at hfind
  split at hfind
  · contradiction
  · exact (h.byId id e).mp hfind

theorem put_books (h : Books kept m lru blocks) (hwithin : Within l m) (id dsml : Bytes)
    (source : Source) :
    ∃ lru' blocks', Books (lastPut [(id, dsml)] kept) (m.put l id dsml source) lru' blocks' ∧
      Within l (m.put l id dsml source) := by
  unfold Memory.put lastPut
  simp only [foldl_cons, foldl_nil]
  split
  · exact ⟨lru, blocks, h, hwithin⟩
  rename_i hfull
  rw [not_or] at hfull
  split
  · rename_i hfind
    unfold Memory.findEntry at hfind
    rw [if_neg (mt eq_nil_of_length_eq_zero hfull.1)] at hfind
    exact putNew_books h hfull.2 hfind source
  · rename_i old hfind
    obtain ⟨hold, hid⟩ := findEntry_mem h.toTallied hfind
    split
    · rename_i hsame
      have hlast : update kept id (some dsml) = kept := by
        rw [← hid, ← hsame.2, ← (h.entry old hold).kept, update_eq_self]
      rw [hlast]
      obtain ⟨lru', htouch⟩ := (h.source _).touch hold
      exact prune_books htouch
    · obtain ⟨a, c, rfl⟩ := append_of_mem hold
      obtain ⟨blocks', hbooks⟩ := h.removeEntry
      refine putNew_books hbooks hfull.2 ?_ source
      rw [removeEntry_byId, hid, update_self]

theorem within_removeEntry (h : Within l m) (e : Ptr) : Within l (m.removeEntry e) := by
  have hle : (m.removeEntry e).entries = m.entries - 1 ∧ (m.removeEntry e).bytes ≤ m.bytes := by
    simp only [Memory.removeEntry, Memory.releaseBlock, Memory.freeUnused]
    split
    · exact ⟨rfl, Nat.sub_le ..⟩
    · exact ⟨rfl, (Nat.sub_le ..).trans (Nat.sub_le ..)⟩
  unfold Within at h ⊢
  omega

section

variable (h : Books kept m lru blocks)

include h

theorem findEntry_books (hwithin : Within l m) (id : Bytes) {act : Ptr → Memory}
    (hact : ∀ e ∈ lru, ∃ lru' blocks', Books kept (act e) lru' blocks' ∧ Within l (act e)) :
    ∃ lru' blocks', Books kept ((m.findEntry id).elim m act) lru' blocks' ∧
      Within l ((m.findEntry id).elim m act) := by
  cases hfind : m.findEntry id with
  | none => exact ⟨lru, blocks, h, hwithin⟩
  | some e => exact hact e (findEntry_mem h.toTallied hfind).1

theorem puts_books (hwithin : Within l m) (calls : List Bytes) (dsml : Bytes) :
    ∃ lru' blocks', Books (lastPut (calls.map (·, dsml)) kept)
        (calls.foldl (fun m id => m.put l id dsml .ram) m) lru' blocks' ∧
      Within l (calls.foldl (fun m id => m.put l id dsml .ram) m) := by
  induction calls generalizing kept m lru blocks with
  | nil => exact ⟨lru, blocks, h, hwithin⟩
  | cons id calls ih =>
    obtain ⟨lru', blocks', hput, hlimits⟩ := put_books h hwithin id dsml .ram
    exact ih hput hlimits

theorem step_books (hwithin : Within l m) (op : Op) :
    ∃ lru' blocks', Books (lastPut op.puts kept) (step l m op) lru' blocks' ∧
      Within l (step l m op) := by
  have htouch : ∀ e ∈ lru, ∃ lru' blocks', Books kept (m.touch e) lru' blocks' ∧
      Within l (m.touch e) := fun e he => by
    obtain ⟨lru', htouch⟩ := h.touch he
    exact ⟨lru', blocks, htouch, hwithin⟩
  cases op with
  | put id dsml source => exact put_books h hwithin id dsml source
  | remember disabled calls rawDsml =>
    simp only [step, Memory.remember, Op.puts]
    split
    · exact ⟨lru, blocks, h, hwithin⟩
    · exact puts_books h hwithin calls rawDsml
  | lookup id =>
    have hlookup : (m.lookup id).1 = (m.findEntry id).elim m m.touch := by
      unfold Memory.lookup
      cases m.findEntry id <;> rfl
    simp only [step, hlookup]
    exact findEntry_books h hwithin id htouch
  | touch id => exact findEntry_books h hwithin id htouch
  | prune => exact prune_books h
  | remove id =>
    refine findEntry_books h hwithin id fun e he => ?_
    obtain ⟨a, c, rfl⟩ := append_of_mem he
    obtain ⟨blocks', hbooks⟩ := h.removeEntry
    exact ⟨a ++ c, blocks', hbooks, within_removeEntry hwithin e⟩

end

/-- In every state a run reaches the index and the list hold the same entries in
the order of their use, counts and sizes are right, the limits hold, and an id
has the markup of its last put. -/
theorem run_books (l : Limits) (ops : List Op) :
    ∃ lru blocks, Books (lastPut (ops.flatMap Op.puts) fun _ => none) (run l ops) lru blocks ∧
      Within l (run l ops) := by
  have hempty : Books (fun _ => none) empty [] [] := by
    refine ⟨⟨⟨nodup_nil, rfl, rfl, fun a e b hsplit => by simp at hsplit⟩, ?_, ?_,
      nodup_nil, ?_, ?_, rfl, rfl, List.Pairwise.nil, ?_⟩, ?_⟩
    all_goals simp [Indexes, empty]
  have hrun : ∀ ops {kept m lru blocks}, Books kept m lru blocks → Within l m →
      ∃ lru' blocks', Books (lastPut (flatMap Op.puts ops) kept) (ops.foldl (step l) m)
        lru' blocks' ∧ Within l (ops.foldl (step l) m) := by
    intro ops
    induction ops with
    | nil => exact fun h hwithin => ⟨_, _, h, hwithin⟩
    | cons op ops ih =>
      intro kept m lru blocks h hwithin
      obtain ⟨lru', blocks', hstep, hlimits⟩ := step_books h hwithin op
      have := ih hstep hlimits
      simpa only [lastPut, flatMap_cons, foldl_append, foldl_cons] using this
  exact hrun ops hempty (within_of_nil hempty)

end Ds4Studio.Chat.ToolMemory
