import RaiBlocks.Bootstrap.BulkPull
import RaiBlocks.Bootstrap.FrontierReq

/-!
# The requests of a bootstrap attempt

What `request_frontier` and `request_pull` of `bootstrap_attempt` get from a peer: the client and
the server of each request, joined. The connection delivers what is written.
-/

namespace RaiBlocks.Bootstrap

/-- `frontier_req_client::run`: all frontiers of the peer, whatever their age. -/
def frontierRequest (s peer : BlockStore) (now : BitVec 64) : Except Fault FrontierReqClient := do
  let frontiers ← FrontierReqServer.run peer (BitVec.allOnes 32) now 0
  FrontierReqClient.run s frontiers

/-- `bulk_pull_client::request` -/
def pullRequest (p : NodeEnv) (peer : BlockStore) (pull : PullInfo) :
    Except Fault BulkPullClient := do
  let bytes ← BulkPullServer.respond peer pull.account pull.endHash
  BulkPullClient.run p (.request pull bytes)

end RaiBlocks.Bootstrap
