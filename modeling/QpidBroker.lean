import QpidBroker.Proof.AclRoutingKey
import QpidBroker.Proof.CreditWindow
import QpidBroker.Proof.DtxManager
import QpidBroker.Proof.Expiration
import QpidBroker.Proof.FieldTableMap
import QpidBroker.Proof.FileHeader
import QpidBroker.Proof.FlowControl
import QpidBroker.Proof.FrameEncoder
import QpidBroker.Proof.GroupLookup
import QpidBroker.Proof.MaxDepth
import QpidBroker.Proof.MessageGroups
import QpidBroker.Proof.PagedSeek
import QpidBroker.Proof.Properties
import QpidBroker.Proof.QueueReplicator
import QpidBroker.Proof.Reoffer
import QpidBroker.Proof.ReplicatedTx
import QpidBroker.Proof.ResourceCounter
import QpidBroker.Proof.SelectorForms
import QpidBroker.Proof.SequenceSet
import QpidBroker.Proof.SessionResume
import QpidBroker.Proof.StaysDeleted
import QpidBroker.Proof.StoreRecovery
import QpidBroker.Proof.SubjectFilter
import QpidBroker.Proof.TopicCache
import QpidBroker.Proof.Trace
import QpidBroker.Proof.Wmgr
