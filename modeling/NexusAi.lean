import NexusAi.Scheduler.Enumeration
import NexusAi.Scheduler.Agreement
import NexusAi.Scheduler.Lifecycle
import NexusAi.Scheduler.Firing
import NexusAi.Scheduler.Isolation
import NexusAi.Campaigns.QuietHours
import NexusAi.Humans.Handoffs
import NexusAi.Workflow.Validation
import NexusAi.Workflow.Holding
import NexusAi.Workflow.Confluence
import NexusAi.Events.Retention
import NexusAi.Events.Redelivery
import NexusAi.Events.Subjects
import NexusAi.Messaging.Threads
import NexusAi.Webhooks.Acknowledged
import NexusAi.Customers.OneOwner
import NexusAi.Telephony.Milestones
import NexusAi.Telephony.Hangup
import NexusAi.Integrations.Containment
import NexusAi.Otp.Throttle
import NexusAi.Auth.Memberships
import NexusAi.Auth.LivePrincipals
import NexusAi.Auth.Limiter
import NexusAi.Integrations.Recovery
import NexusAi.Integrations.DestinationRules
import NexusAi.Integrations.Vault
import NexusAi.Webhooks.SignedOnce
import NexusAi.Agents.Repeated
import NexusAi.Provisioning.Once
import NexusAi.Kamailio.Conservation
import NexusAi.Cells.Fencing
import NexusAi.Compliance.Authority
import NexusAi.Messaging.Failures
import NexusAi.Messaging.Listing
import NexusAi.Agents.Context
import NexusAi.Core.Tenancy
import NexusAi.SipEdge.Dialogs
