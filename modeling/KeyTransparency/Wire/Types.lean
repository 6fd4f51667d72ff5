import KeyTransparency.Auditor
import KeyTransparency.Claim
import KeyTransparency.Config
import KeyTransparency.Partition.Basic
import KeyTransparency.Storage.Record

/-!
The codecs of the types that travel: digests, proofs, tries and settings.

Names and the order of fields are those that the other parties use.  Nothing is recomputed or checked
on reading, so a trie that is read may carry any hashes and any shape.
-/

namespace KeyTransparency

open Codec

def ValueEntry.codec : Codec ValueEntry :=
  (record (required "hash" Codec.hash (required "position" word noFields))).iso
    (fun (h, position, ()) => ⟨h, position⟩) (fun v => (v.hash, v.position, ()))

/-! ## Trie proofs -/

def CopathEntry.codec : Codec CopathEntry :=
  (record (required "label" bits (optional "sibling" Codec.hash noFields))).iso
    (fun (label, sibling, ()) => ⟨label, sibling⟩) (fun e => (e.label, e.sibling, ()))

def MembershipProof.codec : Codec MembershipProof :=
  (record (required "leaf_label" bits (required "copath" (list CopathEntry.codec) noFields))).iso
    (fun (leafLabel, copath, ()) => ⟨leafLabel, copath⟩) (fun p => (p.leafLabel, p.copath, ()))

def NonMembershipProof.codec : Codec NonMembershipProof :=
  (record
      (optional "frontier_hash" Codec.hash
        (required "frontier_label" bits
          (required "copath" (list CopathEntry.codec) noFields)))).iso
    (fun (frontierHash, frontierLabel, copath, ()) => ⟨frontierHash, frontierLabel, copath⟩)
    (fun p => (p.frontierHash, p.frontierLabel, p.copath, ()))

def LookupProof.codec : Codec LookupProof :=
  choice
    [alternative "Member"
        (record
          (required "proof" MembershipProof.codec
            (required "values" (list ValueEntry.codec) noFields)))
        (fun (proof, values, ()) => .member proof values)
        (fun | .member proof values => some (proof, values, ()) | _ => none),
      alternative "NonMember" NonMembershipProof.codec .nonMember
        (fun | .nonMember proof => some proof | _ => none)]

/-! ## Logs and forests -/

def LogEntry.codec : Codec LogEntry :=
  (record (required "epoch" word (required "root" Codec.hash noFields))).iso
    (fun (epoch, root, ()) => ⟨epoch, root⟩) (fun e => (e.epoch, e.root, ()))

def LogDigest.codec : Codec LogDigest :=
  (record (required "root" Codec.hash (required "size" (nat 8) noFields))).iso
    (fun (root, size, ()) => ⟨root, size⟩) (fun d => (d.root, d.size, ()))

def ConsistencyProof.codec : Codec ConsistencyProof :=
  (record
      (required "old_size" (nat 8)
        (required "new_size" (nat 8)
          (required "path" (list Codec.hash) noFields)))).iso
    (fun (oldSize, newSize, path, ()) => ⟨oldSize, newSize, path⟩)
    (fun p => (p.oldSize, p.newSize, p.path, ()))

def CommitmentLog.codec : Codec CommitmentLog :=
  (record
      (required "entries" (array LogEntry.codec)
        (required "levels" (list (array Codec.hash)) noFields))).iso
    (fun (entries, levels, ()) => ⟨entries, levels⟩) (fun l => (l.entries, l.levels, ()))

def ForestNode.codec : Codec ForestNode :=
  (record
      (required "hash" Codec.hash
        (required "newest_leaf" Codec.hash
          (required "period" word noFields)))).iso
    (fun (h, newestLeaf, period, ()) => ⟨h, newestLeaf, period⟩)
    (fun n => (n.hash, n.newestLeaf, n.period, ()))

def ForestDigest.codec : Codec ForestDigest :=
  (record (required "roots" (list ForestNode.codec) (required "size" (nat 8) noFields))).iso
    (fun (roots, size, ()) => ⟨roots, size⟩) (fun d => (d.roots, d.size, ()))

def ExtensionProof.codec : Codec ExtensionProof :=
  (record
      (required "old_size" (nat 8)
        (required "new_size" (nat 8)
          (required "siblings" (list ForestNode.codec) noFields)))).iso
    (fun (oldSize, newSize, siblings, ()) => ⟨oldSize, newSize, siblings⟩)
    (fun p => (p.oldSize, p.newSize, p.siblings, ()))

def HistoryForest.codec : Codec HistoryForest :=
  (record
      (required "levels" (list (array ForestNode.codec))
        (required "depth" (nat 4) noFields))).iso
    (fun (levels, depth, ()) => ⟨levels, depth⟩) (fun f => (f.levels, f.depth, ()))

/-! ## Partitions -/

def Digest.codec : Codec Digest :=
  (record
      (required "base_roots" (pair Codec.hash)
        (required "base_size" (nat 8)
          (required "update_log" LogDigest.codec
            (required "pending_log" LogDigest.codec
              (required "update_roots" (list Codec.hash)
                (required "update_epoch" word
                  (required "verification_epoch" word
                    (required "settled_update_epoch" word
                      (required "chain" Codec.hash
                        (optional "history" ForestDigest.codec noFields))))))))))).iso
    (fun ((settledRoot, recentRoot), baseSize, updateLog, pendingLog, updateRoots, updateEpoch,
          verificationEpoch, settledUpdateEpoch, chain, history, ()) =>
      { settledRoot, recentRoot, baseSize, updateLog, pendingLog, updateRoots, updateEpoch,
        verificationEpoch, settledUpdateEpoch, chain, history })
    (fun d =>
      ((d.settledRoot, d.recentRoot), d.baseSize, d.updateLog, d.pendingLog, d.updateRoots,
        d.updateEpoch, d.verificationEpoch, d.settledUpdateEpoch, d.chain, d.history, ()))

def ExistenceProof.codec : Codec ExistenceProof :=
  (record
      (required "base" (list LookupProof.codec)
        (required "updates" (list LookupProof.codec) noFields))).iso
    (fun (base, updates, ()) => ⟨base, updates⟩) (fun p => (p.base, p.updates, ()))

def CheckpointProof.codec : Codec CheckpointProof :=
  (record
      (required "log" ConsistencyProof.codec
        (optional "history" ExtensionProof.codec noFields))).iso
    (fun (log, history, ()) => ⟨log, history⟩) (fun p => (p.log, p.history, ()))

/-! ## Tries -/

namespace Trie.Subtree

def ofOption (t : Option Subtree) : Subtree := t.getD vacant

def toOption : Subtree → Option Subtree
  | vacant => none
  | t => some t

/-- A node with at most `levels` levels below it. -/
def nodeCodec : (levels : Nat) → Codec Subtree
  | 0 => choice []
  | levels + 1 =>
    let body : Unit → Codec Subtree := fun () =>
      choice
        [alternative "Internal"
            (record
              (required "label" bits
                (optional "left" (nodeCodec levels)
                  (optional "right" (nodeCodec levels)
                    (required "hash" Codec.hash noFields)))))
            (fun (label, left, right, h, ()) => branch label (ofOption left) (ofOption right) h)
            (fun | branch label left right h => some (label, left.toOption, right.toOption, h, ()) | _ => none),
          alternative "Leaf"
            (record
              (required "label" bits
                (required "values" (list ValueEntry.codec)
                  (required "hash" Codec.hash noFields))))
            (fun (label, values, h, ()) => leaf label values h)
            (fun | leaf label values h => some (label, values, h, ()) | _ => none)]
    { write := fun t => (body ()).write t
      read := fun bytes => (body ()).read bytes
      toJson := fun form t => (body ()).toJson form t
      ofJson := fun form depth j => (body ()).ofJson form depth j }

/-- More levels than any trie has that is read or written. -/
def codec : Codec Subtree := nodeCodec 65536

end Trie.Subtree

def PrefixTrie.codec : Codec PrefixTrie :=
  (record
      (required "root" Trie.Subtree.codec
        (optional "key_len" (nat 8)
          (required "keys" (nat 8)
            (required "sealed" bool noFields))))).iso
    (fun (root, keyLength, size, isSealed, ()) => ⟨root, keyLength, size, isSealed⟩)
    (fun t => (t.root, t.keyLength, t.size, t.isSealed, ()))

def nodeId : Codec NodeId := nat 4

def VersionedContent.codec : Codec VersionedContent :=
  choice
    [alternative "Internal"
        (record (optional "left" nodeId (optional "right" nodeId noFields)))
        (fun (left, right, ()) => .branch left right)
        (fun | .branch left right => some (left, right, ()) | _ => none),
      alternative "Leaf" (record (required "values" (list ValueEntry.codec) noFields))
        (fun (values, ()) => .leaf values)
        (fun | .leaf values => some (values, ()) | _ => none)]

def VersionedNode.codec : Codec VersionedNode :=
  (record
      (required "label" bits
        (required "kind" VersionedContent.codec
          (required "hash" Codec.hash
            (required "epoch" (nat 8)
              (optional "prev" nodeId
                (optional "next" nodeId
                  (optional "parent" nodeId noFields)))))))).iso
    (fun (label, content, h, epoch, prev, next, parent, ()) =>
      ⟨label, content, h, epoch, prev, next, parent⟩)
    (fun n => (n.label, n.content, n.hash, n.epoch, n.prev, n.next, n.parent, ()))

def PersistentTrie.codec : Codec PersistentTrie :=
  (record
      (required "nodes" (array VersionedNode.codec)
        (required "roots" (array nodeId)
          (required "sizes" (array (nat 8))
            (required "current_root" nodeId
              (required "epoch" (nat 8)
                (required "size" (nat 8)
                  (optional "key_len" (nat 8) noFields)))))))).iso
    (fun (nodes, roots, sizes, currentRoot, epoch, size, keyLength, ()) =>
      ⟨nodes, roots, sizes, currentRoot, epoch, size, keyLength⟩)
    (fun t => (t.nodes, t.roots, t.sizes, t.currentRoot, t.epoch, t.size, t.keyLength, ()))

/-! ## Small types -/

def Verdict.codec : Codec Verdict :=
  choice [unit "First" .first, unit "Extended" .extended, unit "Settled" .settled,
    unit "Reanchored" .reanchored]

def ProofSource.codec : Codec ProofSource :=
  choice
    [alternative "BaseTrie" (nat 8) .baseTrie (fun | .baseTrie i => some i | _ => none),
      alternative "UpdateTrie" (nat 8) .updateTrie (fun | .updateTrie i => some i | _ => none),
      unit "Trie" .trie, unit "Log" .log, unit "History" .history, unit "Chain" .chain,
      unit "Signature" .signature]

def ClaimKind.codec : Codec ClaimKind := choice [unit "MasterKey" .masterKey, unit "PublicKey" .publicKey]

def PartitionKind.codec : Codec PartitionKind :=
  choice [unit "window" .window, unit "aggregated" .aggregated]

/-- Settings that are left out have their default. -/
def Config.codec : Codec Config :=
  (recordWith true
      (field "verification_period_ms" (nat 8) (some Config.default.verificationPeriodMs)
        (field "update_period_ms" (nat 8) (some Config.default.updatePeriodMs)
          (field "partitions" (nat 8) (some Config.default.partitions)
            (field "aggregated_history" bool (some Config.default.aggregatedHistory)
              (field "history_depth" (nat 4) (some Config.default.historyDepth) noFields)))))).iso
    (fun (verificationPeriodMs, updatePeriodMs, partitions, aggregatedHistory, historyDepth, ()) =>
      ⟨verificationPeriodMs, updatePeriodMs, partitions, aggregatedHistory, historyDepth⟩)
    (fun c =>
      (c.verificationPeriodMs, c.updatePeriodMs, c.partitions, c.aggregatedHistory, c.historyDepth,
        ()))

end KeyTransparency
