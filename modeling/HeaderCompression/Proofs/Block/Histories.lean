import HeaderCompression.Proofs.Decoder.Runs

/-!
# Histories of a reader

A reader goes through operations in any order. Octets arrive and are decoded, and the reader goes on
after an error; blocks end wherever they are cut off; sizes and the policy change. A history is the
list of the operations so far, and every fact about all histories follows from one operation.
-/

namespace HeaderCompression.Block.Reader

open Octets Table

/-- What can be done to a reader. The end of a block and the loss of the octets not yet decoded are
operations of their own, so that a block can end with or without such a loss. -/
inductive Operation where
  | receive (octets : Octets)
  | decode (fragment : Octets)
  | endBlock
  | clearInput
  | resize (capacity : Nat)
  | setTableSizeLimit (limit : Nat)
  | setPolicy (policy : EvictionPolicy)

/-- A capacity that is rejected changes nothing. -/
def perform (reader : Reader) : Operation → Reader
  | .receive octets => { reader with input := reader.input.append octets }
  | .decode fragment => (reader.decode fragment).2
  | .endBlock => { reader with decoder := reader.decoder.endBlock.2 }
  | .clearInput => { reader with input := reader.input.clear }
  | .resize capacity =>
    { reader with decoder := (reader.decoder.resize capacity).toOption.getD reader.decoder }
  | .setTableSizeLimit limit => reader.setTableSizeLimit limit
  | .setPolicy policy => reader.setPolicy policy

variable {reader : Reader}

theorem decoder_decode_eq_run (reader : Reader) (fragment : Octets) :
    (reader.decode fragment).2.decoder =
      (reader.decoder.run (reader.input.append fragment).unread.length
        (reader.input.append fragment).unread).decoder := by
  unfold decode Decoder.decode
  dsimp only
  split <;> rfl

/-- What runs and every adjustment keep of a decoder is kept by an operation. -/
theorem perform_induction {motive : Decoder → Prop}
    (run : ∀ steps unread, motive (reader.decoder.run steps unread).decoder)
    (endBlock : motive reader.decoder.endBlock.2)
    (resize : ∀ capacity resized, reader.decoder.resize capacity = .ok resized → motive resized)
    (setTableSizeLimit : ∀ limit, motive (reader.decoder.setTableSizeLimit limit))
    (setPolicy : ∀ policy, motive (reader.decoder.setPolicy policy))
    (hdecoder : motive reader.decoder) (operation : Operation) :
    motive (reader.perform operation).decoder := by
  cases operation with
  | receive octets => exact hdecoder
  | decode fragment =>
    rw [perform, decoder_decode_eq_run]
    exact run _ _
  | endBlock => exact endBlock
  | clearInput => exact hdecoder
  | resize capacity =>
    rw [perform]
    cases hresize : reader.decoder.resize capacity with
    | error error => exact hdecoder
    | ok resized => exact resize capacity resized hresize
  | setTableSizeLimit limit => exact setTableSizeLimit limit
  | setPolicy policy => exact setPolicy policy

theorem valid_perform (hvalid : reader.decoder.Valid) (operation : Operation) :
    (reader.perform operation).decoder.Valid :=
  perform_induction (fun steps unread ↦ hvalid.run steps unread) hvalid.endBlock
    (fun _ _ hresize ↦ hvalid.resize hresize) (fun limit ↦ hvalid.setTableSizeLimit limit)
    (fun policy ↦ hvalid.setPolicy policy) hvalid operation

theorem isMarked_perform (hmarked : reader.input.IsMarked) (operation : Operation) :
    (reader.perform operation).input.IsMarked := by
  cases operation with
  | receive octets => exact Queue.isMarked_append hmarked octets
  | decode fragment => exact isMarked_decode reader fragment
  | clearInput => exact Queue.isMarked_empty
  | _ => exact hmarked

theorem valid_foldl_perform (hvalid : reader.decoder.Valid) (operations : List Operation) :
    (operations.foldl perform reader).decoder.Valid := by
  induction operations generalizing reader with
  | nil => exact hvalid
  | cons operation operations hoperations => exact hoperations (valid_perform hvalid operation)

theorem isMarked_foldl_perform (hmarked : reader.input.IsMarked) (operations : List Operation) :
    (operations.foldl perform reader).input.IsMarked := by
  induction operations generalizing reader with
  | nil => exact hmarked
  | cons operation operations hoperations => exact hoperations (isMarked_perform hmarked operation)

end HeaderCompression.Block.Reader
