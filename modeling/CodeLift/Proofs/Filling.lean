import CodeLift.Proofs.Commands

/-!
# Listings keep a part for every block

A listing of blocks keeps a part for each of them: a part is added when its block is created, and
every other command changes the part of the block that it is about. Whatever a part is and whatever
the commands do to it, the commands of a function leave the part of each block as the commands of
that block make it, and those of other blocks do not show there.
-/

namespace CodeLift

theorem modify_append_cons {α : Type} (l r : List α) (a : α) (f : α → α) :
    (l ++ a :: r).modify l.length f = l ++ f a :: r := by
  induction l with
  | nil => rfl
  | cons b l ih => simp [ih]

section Parts

variable {α : Type} (create : BlockId → Address → α) (fill : α → Command → α)

/-- Carry out a command on the parts of a listing. -/
def Command.keep (parts : Array α) : Command → Array α
  | .createBlock id entry => parts.push (create id entry)
  | c => parts.modify c.block (fill · c)

/-- The part of a block, as its commands make it. -/
def Block.part (b : Block) (id : BlockId) : α := (b.commands id).foldl fill (create id b.entry)

theorem Command.keep_of_fills {c : Command} (h : c.Fills) (parts : Array α) :
    c.keep create fill parts = parts.modify c.block (fill · c) := by
  cases c with
  | createBlock id entry => exact False.elim h
  | _ => rfl

namespace FlowGraph

/-- Commands about one block are carried out on its part. -/
theorem foldl_keep_block {cs : List Command} {id : BlockId}
    (h : ∀ c ∈ cs, c.Fills ∧ c.block = id) (before after : List α) (a : α)
    (hid : before.length = id) :
    cs.foldl (Command.keep create fill) (before ++ a :: after).toArray =
      (before ++ cs.foldl fill a :: after).toArray := by
  induction cs generalizing a with
  | nil => rfl
  | cons c cs ih =>
    obtain ⟨hfills, hblock⟩ := h c List.mem_cons_self
    rw [List.foldl_cons, List.foldl_cons, Command.keep_of_fills create fill hfills, hblock,
      List.modify_toArray, ← hid, modify_append_cons,
      ih fun d hd => h d (List.mem_cons_of_mem _ hd)]

theorem foldl_keep_creates (bs : List Block) (before : List α) :
    (creates before.length bs).foldl (Command.keep create fill) before.toArray =
      (before ++ (bs.zipIdx before.length).map fun p => create p.2 p.1.entry).toArray := by
  induction bs generalizing before with
  | nil => simp [creates]
  | cons b bs ih =>
    have hrest := ih (before ++ [create before.length b.entry])
    rw [List.length_append, List.length_singleton] at hrest
    rw [creates_cons, List.foldl_cons, Command.keep, List.push_toArray, hrest]
    simp

theorem foldl_keep_fills (bs : List Block) (before : List α) :
    (fills before.length bs).foldl (Command.keep create fill)
        (before ++ (bs.zipIdx before.length).map fun p => create p.2 p.1.entry).toArray =
      (before ++ (bs.zipIdx before.length).map fun p => p.1.part create fill p.2).toArray := by
  -- the parts `before` are filled already, and no later command is about them
  induction bs generalizing before with
  | nil => rfl
  | cons b bs ih =>
    have hrest := ih (before ++ [b.part create fill before.length])
    rw [List.length_append, List.length_singleton] at hrest
    rw [fills_cons, List.foldl_append, List.zipIdx_cons, List.map_cons,
      foldl_keep_block create fill (fun c hc => Block.of_mem_commands hc) _ _ _ rfl]
    simpa [Block.part] using hrest

/-- The commands of a function make the parts of its blocks. -/
theorem foldl_keep_commands (g : FlowGraph) :
    g.commands.foldl (Command.keep create fill) #[] =
      (g.blocks.toList.zipIdx.map fun p => p.1.part create fill p.2).toArray := by
  have hcreates := foldl_keep_creates create fill g.blocks.toList []
  have hfills := foldl_keep_fills create fill g.blocks.toList []
  simp only [List.length_nil, List.nil_append] at hcreates hfills
  rw [commands_eq, List.foldl_append, hcreates, hfills]

end FlowGraph

end Parts

end CodeLift
