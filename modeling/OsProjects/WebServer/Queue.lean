import Mathlib.Logic.Function.Basic
import Mathlib.Data.Int.Basic

namespace OsProjects
namespace WebServer

/-!
# The request queue of the web server

`server_t` keeps a request in five parallel arrays of `buffer_sz` entries.
`put` takes the first slot whose `valid` flag is clear, and `get` scans all
slots for the smallest file.  Both are loops over the slot index; the model
keeps the loop as a recursion on the number of slots still to visit.
-/

/-- The part of `struct server_t` that the two queue operations read and write.
A line pointer is the index of the line in `main`'s `fileinfo_buffer`. -/
structure Server where
  buff_count : Int
  buffer_sz : Nat
  buffer : Nat -> Int
  valid : Nat -> Int
  fileinfo : Nat -> Nat
  size_file : Nat -> Int
  size_filename : Nat -> Int

namespace Server

/-- The assignments of `put` at the slot `i` it has found. -/
def filled (server : Server) (i : Nat) (value : Int) (buff : Nat) (file_sz filename_sz : Int) :
    Server :=
  { server with
    valid := Function.update server.valid i 1
    buffer := Function.update server.buffer i value
    fileinfo := Function.update server.fileinfo i buff
    size_file := Function.update server.size_file i file_sz
    size_filename := Function.update server.size_filename i filename_sz
    buff_count := server.buff_count + 1 }

/-- The loop of `put`, from slot `i` with `todo` slots left. -/
def putFrom (server : Server) (value : Int) (buff : Nat) (file_sz filename_sz : Int) :
    Nat -> Nat -> Server
  | 0, _ => server
  | todo + 1, i =>
      if server.valid i = 0 then server.filled i value buff file_sz filename_sz
      else putFrom server value buff file_sz filename_sz todo (i + 1)

def put (server : Server) (value : Int) (buff : Nat) (file_sz filename_sz : Int) : Server :=
  server.putFrom value buff file_sz filename_sz server.buffer_sz 0

/-- The loop of `get`.  `temp_val` starts at `-1`, which the source also uses as
the mark that no slot has been chosen yet. -/
def getFrom (server : Server) : Nat -> Nat -> Int -> Nat -> Nat
  | 0, _, _, temp_ind => temp_ind
  | todo + 1, i, temp_val, temp_ind =>
      if server.valid i = 1 then
        if temp_val = -1 then getFrom server todo (i + 1) (server.size_file i) i
        else if server.size_file i < temp_val then
          getFrom server todo (i + 1) (server.size_file i) i
        else getFrom server todo (i + 1) temp_val temp_ind
      else getFrom server todo (i + 1) temp_val temp_ind

/-- The slot that `get` empties. -/
def chosen (server : Server) : Nat :=
  server.getFrom server.buffer_sz 0 (-1) 0

/-- `get` returns the descriptor and, through its pointer argument, the line. -/
def get (server : Server) : (Int × Nat) × Server :=
  ((server.buffer server.chosen, server.fileinfo server.chosen),
    { server with
      valid := Function.update server.valid server.chosen 0
      buff_count := server.buff_count - 1 })

/-! ## What the two loops do -/

theorem putFrom_of_free (server : Server) (value : Int) (buff : Nat) (file_sz filename_sz : Int)
    {free : Nat} (isFree : server.valid free = 0) (todo i : Nat) (above : i ≤ free)
    (within : free < i + todo)
    (busyBelow : forall j, i ≤ j -> j < free -> server.valid j ≠ 0) :
    server.putFrom value buff file_sz filename_sz todo i =
      server.filled free value buff file_sz filename_sz := by
  induction todo generalizing i with
  | zero => omega
  | succ todo ih =>
      unfold putFrom
      by_cases here : i = free
      · subst i
        rw [if_pos isFree]
      · rw [if_neg (busyBelow i (Nat.le_refl i) (by omega))]
        exact ih (i + 1) (by omega) (by omega)
          (fun j lower upper => busyBelow j (by omega) upper)

/-- `put` fills the first slot whose flag is clear. -/
theorem put_of_first_free (server : Server) (value : Int) (buff : Nat) (file_sz filename_sz : Int)
    {free : Nat} (isFree : server.valid free = 0) (within : free < server.buffer_sz)
    (busyBelow : forall j, j < free -> server.valid j ≠ 0) :
    server.put value buff file_sz filename_sz =
      server.filled free value buff file_sz filename_sz :=
  server.putFrom_of_free value buff file_sz filename_sz isFree server.buffer_sz 0
    (Nat.zero_le free) (by omega) (fun j _ upper => busyBelow j upper)

/-- Slots that are not valid do not affect the scan of `get`. -/
theorem getFrom_skip (server : Server) (todo i : Nat) (temp_val : Int) (temp_ind : Nat)
    (empty : forall j, i ≤ j -> j < i + todo -> server.valid j ≠ 1) :
    server.getFrom todo i temp_val temp_ind = temp_ind := by
  induction todo generalizing i with
  | zero => rfl
  | succ todo ih =>
      unfold getFrom
      rw [if_neg (empty i (Nat.le_refl i) (by omega))]
      exact ih (i + 1) (fun j lower upper => empty j (by omega) (by omega))

/-- A single valid slot is the one that `get` takes, whatever its size. -/
theorem chosen_of_single (server : Server) {only : Nat} (within : only < server.buffer_sz)
    (isValid : server.valid only = 1)
    (others : forall j, j < server.buffer_sz -> j ≠ only -> server.valid j ≠ 1) :
    server.chosen = only := by
  suffices scan : forall todo i temp_ind, i ≤ only -> only < i + todo ->
      i + todo ≤ server.buffer_sz -> server.getFrom todo i (-1) temp_ind = only by
    exact scan server.buffer_sz 0 0 (Nat.zero_le only) (by omega) (by omega)
  intro todo
  induction todo with
  | zero => intro i temp_ind lower upper; omega
  | succ todo ih =>
      intro i temp_ind lower upper bounded
      unfold getFrom
      by_cases here : i = only
      · subst i
        rw [if_pos isValid, if_pos rfl]
        exact server.getFrom_skip todo (only + 1) (server.size_file only) only
          (fun j above below => others j (by omega) (by omega))
      · rw [if_neg (others i (by omega) here)]
        exact ih (i + 1) temp_ind (by omega) (by omega) (by omega)

end Server
end WebServer
end OsProjects
